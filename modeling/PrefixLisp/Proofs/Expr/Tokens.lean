import PrefixLisp.Proofs.Expr.Writing

/-
  The tokens of a tree.

  Up to places and up to the way its numbers are written, a tree has just one list of tokens,
  `Expr.tokens`. Whatever tokens derive the tree, they are these (`Phrase.Derives.spelledBy`); and
  the text of the tree is read as these, where numbers are in plain decimal notation
  (`Expr.reads_tokens`). The first is an induction on the derivation, the second one follows the
  renderer.
-/

namespace PrefixLisp

/-- Kind and lexeme. -/
def Token.unplaced (t : Token) : Token.Kind × String :=
  (t.kind, t.lexeme)

/-- The lexeme of the token, or the plain decimal text if it is a number. -/
def Token.plainLexeme (t : Token) : String :=
  match t.kind with
  | .number n => n.render
  | _ => t.lexeme

def Token.plain (t : Token) : Token.Kind × String :=
  (t.kind, t.plainLexeme)

/-! ## The tokens -/

def parenthesized (ws : List (Token.Kind × String)) : List (Token.Kind × String) :=
  (.openParen, "(") :: ws ++ [(.closeParen, ")")]

def Keyword.token (k : Keyword) : Token.Kind × String :=
  (.keyword k, k.spelling)

namespace Expr

mutual

/-- The tokens that the expression is written with, numbers in plain decimal notation. -/
def tokens : Expr → List (Token.Kind × String)
  | number n => [(.number n, n.render)]
  | string s => [(.string, "\"" ++ s ++ "\"")]
  | symbol name => [(.symbol, name)]
  | assign name value => parenthesized (Keyword.setq.token :: (.symbol, name) :: value.tokens)
  | cond test yes no =>
    parenthesized (Keyword.ifElse.token :: test.tokens ++ yes.tokens ++ no.tokens)
  | print value => parenthesized (Keyword.print.token :: value.tokens)
  | defun name params body =>
    parenthesized (Keyword.defun.token :: (.symbol, name) ::
      parenthesized (params.map (.symbol, ·)) ++ body.tokens)
  | call name args => parenthesized ((.symbol, name) :: tokensAll args)
  | prim op args => parenthesized ((.operator op, op.symbol) :: tokensAll args)

def tokensAll : List Expr → List (Token.Kind × String)
  | [] => []
  | e :: es => e.tokens ++ tokensAll es

end

end Expr

/-! ## What derives a tree -/

/-- A token of a kind with one spelling is spelled like this. -/
theorem Token.plain_of_spelling? {t : Token} {k : Kind} {s : String} (ht : t.kind = k)
    (hs : k.spelling? = some s) (h : t.kind.IsSpelling t.lexeme.toList) : t.plain = (k, s) := by
  obtain ⟨k, lexeme, pos⟩ := t
  cases ht
  cases k with
  | number | symbol | string => cases hs
  | openParen | closeParen =>
    cases hs
    have hlexeme : lexeme.toList = _ := h
    exact congrArg _ (String.toList_inj.1 hlexeme)
  | operator | keyword =>
    cases hs
    have hlexeme : String.ofList lexeme.toList = _ := h
    rw [String.ofList_toList] at hlexeme
    exact congrArg _ hlexeme

theorem Token.plain_of_symbol {t : Token} (ht : t.kind = .symbol) :
    t.plain = (.symbol, t.lexeme) := by
  simp [plain, plainLexeme, ht]

theorem Token.plain_of_string {t : Token} (ht : t.kind = .string) :
    t.plain = (.string, t.lexeme) := by
  simp [plain, plainLexeme, ht]

theorem Expr.tokens_ofStringLexeme {lexeme : String} (h : Lexeme.IsQuoted lexeme.toList) :
    (ofStringLexeme lexeme).tokens = [(.string, lexeme)] := by
  obtain ⟨s, rfl, _⟩ := exists_quoted h
  have htext : "\"" ++ s ++ "\"" = .ofList ('"' :: s.toList ++ ['"']) := by
    apply String.toList_inj.1
    simp
  rw [ofStringLexeme_quoted, tokens, htext]

/-- These are the tokens of the phrase; a form stands between parentheses. -/
def Phrase.SpelledBy (ws : List (Token.Kind × String)) : Phrase → Prop
  | .expr e => ws = e.tokens
  | .form e => parenthesized ws = e.tokens
  | .sequence es => ws = Expr.tokensAll es

/-- Tokens that derive a phrase are the tokens of the phrase. Every kind tells its lexeme, or the
lexeme stands in the tree; except for numbers, where the tree has the value alone. -/
theorem Phrase.Derives.spelledBy {ph : Phrase} {ts : List Token} (h : ph.Derives ts)
    (hts : ∀ t ∈ ts, t.kind.IsSpelling t.lexeme.toList) : ph.SpelledBy (ts.map Token.plain) := by
  induction h with
  | number ht => simp [SpelledBy, Expr.tokens, Token.plain, Token.plainLexeme, ht]
  | @string t ht =>
    have hquoted := hts t List.mem_cons_self
    rw [ht] at hquoted
    simp [SpelledBy, Expr.tokens_ofStringLexeme hquoted, Token.plain_of_string ht]
  | symbol ht => simp [SpelledBy, Expr.tokens, Token.plain_of_symbol ht]
  | @parens o c e ts ho _ hc ih =>
    have hform : parenthesized (ts.map Token.plain) = e.tokens :=
      ih fun t ht => hts t (by simp [ht])
    have ho := Token.plain_of_spelling? ho rfl (hts o (by simp))
    have hc := Token.plain_of_spelling? hc rfl (hts c (by simp))
    simp [SpelledBy, ← hform, parenthesized, ho, hc]
  | @assign k x v ts hk hx _ ih =>
    have hv : ts.map Token.plain = v.tokens := ih fun t ht => hts t (by simp [ht])
    have hk := Token.plain_of_spelling? hk rfl (hts k (by simp))
    simp [SpelledBy, Expr.tokens, Keyword.token, hk, Token.plain_of_symbol hx, hv]
  | @cond k test yes no ts us vs hk _ _ _ iht ihy ihn =>
    have ht : ts.map Token.plain = test.tokens := iht fun t ht => hts t (by simp [ht])
    have hy : us.map Token.plain = yes.tokens := ihy fun t ht => hts t (by simp [ht])
    have hn : vs.map Token.plain = no.tokens := ihn fun t ht => hts t (by simp [ht])
    have hk := Token.plain_of_spelling? hk rfl (hts k (by simp))
    simp [SpelledBy, Expr.tokens, Keyword.token, hk, ht, hy, hn]
  | @print k v ts hk _ ih =>
    have hv : ts.map Token.plain = v.tokens := ih fun t ht => hts t (by simp [ht])
    have hk := Token.plain_of_spelling? hk rfl (hts k (by simp))
    simp [SpelledBy, Expr.tokens, Keyword.token, hk, hv]
  | @defun k f o c ps b ts hk hf ho hps hc _ ih =>
    have hb : ts.map Token.plain = b.tokens := ih fun t ht => hts t (by simp [ht])
    have hk := Token.plain_of_spelling? hk rfl (hts k (by simp))
    have ho := Token.plain_of_spelling? ho rfl (hts o (by simp))
    have hc := Token.plain_of_spelling? hc rfl (hts c (by simp))
    have hparams : ps.map Token.plain = ps.map fun p => (.symbol, p.lexeme) :=
      List.map_congr_left fun p hp => Token.plain_of_symbol (hps p hp)
    simp [SpelledBy, Expr.tokens, Keyword.token, parenthesized, hk, Token.plain_of_symbol hf, ho,
      hparams, hc, hb, Function.comp_def]
  | @call f es ts hf _ ih =>
    have hes : ts.map Token.plain = Expr.tokensAll es := ih fun t ht => hts t (by simp [ht])
    simp [SpelledBy, Expr.tokens, Token.plain_of_symbol hf, hes]
  | @prim k op es ts hk _ _ ih =>
    have hes : ts.map Token.plain = Expr.tokensAll es := ih fun t ht => hts t (by simp [ht])
    have hk := Token.plain_of_spelling? hk rfl (hts k (by simp))
    simp [SpelledBy, Expr.tokens, hk, hes]
  | nil => rfl
  | @cons e es ts us _ _ ihe ihes =>
    have he : ts.map Token.plain = e.tokens := ihe fun t ht => hts t (by simp [ht])
    have hes : us.map Token.plain = Expr.tokensAll es := ihes fun t ht => hts t (by simp [ht])
    simp [SpelledBy, Expr.tokensAll, he, hes]

/-! ## What the text is read as -/

/-- The tokens are these, wherever they stand. -/
def Spells (ws : List (Token.Kind × String)) (ts : List Token) : Prop :=
  ts.map Token.unplaced = ws

theorem Spells.append {vs ws : List (Token.Kind × String)} {ts us : List Token}
    (hts : Spells vs ts) (hus : Spells ws us) : Spells (vs ++ ws) (ts ++ us) := by
  unfold Spells
  rw [List.map_append, hts, hus]

theorem Then.spells {vs ws : List (Token.Kind × String)} {ts : List Token}
    (h : Then (Spells vs) (Spells ws) ts) : Spells (vs ++ ws) ts := by
  obtain ⟨us, us', rfl, hus, hus'⟩ := h
  exact hus.append hus'

section

variable {x y : List Char} {vs ws : List (Token.Kind × String)}

theorem Reads.spells {k : Token.Kind} {s : String} (hx : Reads x (One k s)) :
    Reads x (Spells [(k, s)]) := by
  refine hx.mono fun ts hts => ?_
  obtain ⟨t, rfl, rfl, rfl⟩ := hts
  rfl

theorem Reads.spells_space (hx : Reads x (Spells vs)) (hy : Reads y (Spells ws)) :
    Reads (x ++ ' ' :: y) (Spells (vs ++ ws)) :=
  (hx.space hy).mono fun _ => Then.spells

theorem Reads.spells_parens (hx : Reads x (Spells ws)) :
    Reads ('(' :: x ++ [')']) (Spells (parenthesized ws)) := by
  refine hx.parens.mono fun ts hts => ?_
  obtain ⟨_, _, rfl, ⟨o, rfl, ho, ho'⟩, us, _, rfl, hus, c, rfl, hc, hc'⟩ := hts
  obtain rfl := hus
  simp [Spells, parenthesized, Token.unplaced, ho, ho', hc, hc']

end

theorem Names.spells {ps : List String} {ts : List Token} (h : Names ps ts) :
    Spells (ps.map (.symbol, ·)) ts := by
  obtain ⟨hkinds, rfl⟩ := h
  unfold Spells
  rw [List.map_map]
  exact List.map_congr_left fun t ht => Prod.ext (hkinds t ht) rfl

namespace Expr

theorem spells_renderArgs {x : List Char} {ws : List (Token.Kind × String)} {es : List Expr}
    (hx : Reads x (Spells ws)) (hes : ∀ e ∈ es, Reads e.render.toList (Spells e.tokens)) :
    Reads (x ++ (renderArgs es).toList) (Spells (ws ++ tokensAll es)) := by
  have hreads := reads_renderArgs (M := fun es => Spells (tokensAll es)) rfl Spells.append hx hes
  exact hreads.mono fun _ => Then.spells

/-- The text of an expression that can be written down is read as its tokens. -/
theorem reads_tokens {e : Expr} (h : e.All Writable) : Reads e.render.toList (Spells e.tokens) := by
  induction e using inductionOnChildren with
  | step e ih =>
    obtain ⟨hwrite, hall⟩ := all_iff.1 h
    have hchild : ∀ c ∈ e.children, Reads c.render.toList (Spells c.tokens) :=
      fun c hc => ih c hc (hall c hc)
    cases e with
    | number n => exact (reads_spelled n.isSpelling_render).spells
    | string s =>
      have hquoted : Lexeme.IsQuoted (render (.string s)).toList :=
        ⟨s.toList, by simp [render], hwrite⟩
      exact (reads_spelled (k := .string) hquoted).spells
    | symbol name => exact (reads_name hwrite).spells
    | assign name v =>
      have hv := hchild v List.mem_cons_self
      have hform :=
        (reads_keyword .setq).spells.spells_space ((reads_name hwrite).spells.spells_space hv)
      simpa [render, tokens, Keyword.token, Keyword.spelling] using hform.spells_parens
    | cond test yes no =>
      obtain ⟨ht, hrest⟩ := List.forall_mem_cons.1 hchild
      obtain ⟨hy, hn⟩ := List.forall_mem_cons.1 hrest
      have hbranches := hy.spells_space (hn no List.mem_cons_self)
      have hform := (reads_keyword .ifElse).spells.spells_space (ht.spells_space hbranches)
      simpa [render, tokens, Keyword.token, Keyword.spelling] using hform.spells_parens
    | print v =>
      have hform := (reads_keyword .print).spells.spells_space (hchild v List.mem_cons_self)
      simpa [render, tokens, Keyword.token, Keyword.spelling] using hform.spells_parens
    | defun name params body =>
      have hparams := ((reads_params hwrite.2).mono fun _ => Names.spells).spells_parens
      have hrest := hparams.spells_space (hchild body List.mem_cons_self)
      have hform :=
        (reads_keyword .defun).spells.spells_space ((reads_name hwrite.1).spells.spells_space hrest)
      simpa [render, tokens, Keyword.token, Keyword.spelling] using hform.spells_parens
    | call name args =>
      have hargs : ∀ c ∈ args, Reads c.render.toList (Spells c.tokens) := hchild
      have hform := spells_renderArgs (reads_name hwrite).spells hargs
      simpa [render, tokens] using hform.spells_parens
    | prim op args =>
      have hargs : ∀ c ∈ args, Reads c.render.toList (Spells c.tokens) := hchild
      have hform := spells_renderArgs (reads_operator op).spells hargs
      simpa [render, tokens] using hform.spells_parens

end Expr

/-- The text of a program is read as its tokens. -/
theorem Program.reads_tokens {p : Program} (h : ∀ e ∈ p, e.All Expr.Writable) :
    Reads p.render.toList (Spells (Expr.tokensAll p)) := by
  have hnewline : "\n".toList = ['\n'] := rfl
  exact reads_intercalate (M := fun es => Spells (Expr.tokensAll es)) Expr.render hnewline rfl rfl
    Spells.append fun e he => Expr.reads_tokens (h e he)

end PrefixLisp
