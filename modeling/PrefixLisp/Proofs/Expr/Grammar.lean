import PrefixLisp.Expr.Basic
import PrefixLisp.Token.Basic

/-
  The grammar of token lists.

    program := expr+
    expr    := NUMBER | STRING | SYMBOL | '(' form ')'
    form    := 'setq' SYMBOL expr
             | 'if' expr expr expr
             | 'print' expr
             | 'defun' SYMBOL '(' SYMBOL* ')' expr
             | SYMBOL expr*
             | operator expr+

  `Phrase.Derives` relates a phrase, that is a nonterminal together with the tree it stands for,
  to the tokens that spell it. Names and strings are taken from the lexemes, numbers from the
  kinds; places play no part (`Derives.map`). The relation says nothing about nesting or about
  repeated parameters.

  The first token of an expression or a form tells which rule it is made with
  (`Derives.expr_cases`, `Derives.form_cases`). So a phrase is determined by the tokens it begins
  with, up to where it is over (`Derives.unique`), and a token list is at most one program
  (`Program.derives_unique`).
-/

namespace PrefixLisp

/-- A nonterminal of the grammar and the tree that it stands for. -/
inductive Phrase where
  | expr (e : Expr)
  /-- What stands between two parentheses. -/
  | form (e : Expr)
  /-- Any number of expressions. -/
  | sequence (es : List Expr)

namespace Phrase

inductive Derives : Phrase → List Token → Prop where
  | number {t : Token} {n : Number} (ht : t.kind = .number n) : Derives (.expr (.number n)) [t]
  | string {t : Token} (ht : t.kind = .string) : Derives (.expr (.ofStringLexeme t.lexeme)) [t]
  | symbol {t : Token} (ht : t.kind = .symbol) : Derives (.expr (.symbol t.lexeme)) [t]
  | parens {o c : Token} {e : Expr} {ts : List Token} (ho : o.kind = .openParen)
      (h : Derives (.form e) ts) (hc : c.kind = .closeParen) : Derives (.expr e) (o :: ts ++ [c])
  | assign {k x : Token} {v : Expr} {ts : List Token} (hk : k.kind = .keyword .setq)
      (hx : x.kind = .symbol) (hv : Derives (.expr v) ts) :
      Derives (.form (.assign x.lexeme v)) (k :: x :: ts)
  | cond {k : Token} {test yes no : Expr} {ts us vs : List Token} (hk : k.kind = .keyword .ifElse)
      (ht : Derives (.expr test) ts) (hy : Derives (.expr yes) us) (hn : Derives (.expr no) vs) :
      Derives (.form (.cond test yes no)) (k :: ts ++ us ++ vs)
  | print {k : Token} {v : Expr} {ts : List Token} (hk : k.kind = .keyword .print)
      (hv : Derives (.expr v) ts) : Derives (.form (.print v)) (k :: ts)
  | defun {k f o c : Token} {ps : List Token} {b : Expr} {ts : List Token}
      (hk : k.kind = .keyword .defun) (hf : f.kind = .symbol) (ho : o.kind = .openParen)
      (hps : ∀ p ∈ ps, p.kind = .symbol) (hc : c.kind = .closeParen) (hb : Derives (.expr b) ts) :
      Derives (.form (.defun f.lexeme (ps.map (·.lexeme)) b)) (k :: f :: o :: ps ++ c :: ts)
  | call {f : Token} {es : List Expr} {ts : List Token} (hf : f.kind = .symbol)
      (hes : Derives (.sequence es) ts) : Derives (.form (.call f.lexeme es)) (f :: ts)
  | prim {k : Token} {op : Operator} {es : List Expr} {ts : List Token}
      (hk : k.kind = .operator op) (hne : es ≠ []) (hes : Derives (.sequence es) ts) :
      Derives (.form (.prim op es)) (k :: ts)
  | nil : Derives (.sequence []) []
  | cons {e : Expr} {es : List Expr} {ts us : List Token} (he : Derives (.expr e) ts)
      (hes : Derives (.sequence es) us) : Derives (.sequence (e :: es)) (ts ++ us)

/-- A derivation survives any change of tokens that keeps their kinds and lexemes. -/
theorem Derives.map {ph : Phrase} {ts : List Token} (f : Token → Token)
    (hkind : ∀ t, (f t).kind = t.kind) (hlexeme : ∀ t, (f t).lexeme = t.lexeme)
    (h : Derives ph ts) : Derives ph (ts.map f) := by
  induction h with
  | number ht => exact .number ((hkind _).trans ht)
  | string ht =>
    rw [← hlexeme]
    exact .string ((hkind _).trans ht)
  | symbol ht =>
    rw [← hlexeme]
    exact .symbol ((hkind _).trans ht)
  | parens ho _ hc ih =>
    rw [List.map_append, List.map_cons]
    exact .parens ((hkind _).trans ho) ih ((hkind _).trans hc)
  | assign hk hx _ ih =>
    rw [← hlexeme]
    exact .assign ((hkind _).trans hk) ((hkind _).trans hx) ih
  | cond hk _ _ _ iht ihy ihn =>
    rw [List.map_append, List.map_append, List.map_cons]
    exact .cond ((hkind _).trans hk) iht ihy ihn
  | print hk _ ih => exact .print ((hkind _).trans hk) ih
  | @defun k x o c ps b ts hk hf ho hps hc _ ih =>
    have hlexemes : ps.map (·.lexeme) = (ps.map f).map (·.lexeme) := by
      rw [List.map_map]
      exact List.map_congr_left fun p _ => (hlexeme p).symm
    rw [← hlexeme, hlexemes, List.map_append]
    refine .defun ((hkind _).trans hk) ((hkind _).trans hf) ((hkind _).trans ho) ?_
      ((hkind _).trans hc) ih
    intro p hp
    obtain ⟨q, hq, rfl⟩ := List.mem_map.1 hp
    exact (hkind q).trans (hps q hq)
  | call hf _ ih =>
    rw [← hlexeme]
    exact .call ((hkind _).trans hf) ih
  | prim hk hne _ ih => exact .prim ((hkind _).trans hk) hne ih
  | nil => exact .nil
  | cons _ _ ihe ihes =>
    rw [List.map_append]
    exact .cons ihe ihes

theorem Derives.append {es fs : List Expr} {ts us : List Token} (hes : Derives (.sequence es) ts)
    (hfs : Derives (.sequence fs) us) : Derives (.sequence (es ++ fs)) (ts ++ us) := by
  induction es generalizing ts with
  | nil =>
    cases hes
    exact hfs
  | cons e es ih =>
    cases hes with
    | cons he hes =>
      rw [List.append_assoc]
      exact .cons he (ih hes)

theorem Derives.singleton {e : Expr} {ts : List Token} (he : Derives (.expr e) ts) :
    Derives (.sequence [e]) ts := by
  have h := Derives.cons he .nil
  rwa [List.append_nil] at h

/-! ## The first token decides -/

/-- The first token of an expression tells its rule. -/
theorem Derives.expr_cases {e : Expr} {ts : List Token} (h : Derives (.expr e) ts) :
    ∃ t us, ts = t :: us ∧
      match t.kind with
      | .number n => us = [] ∧ e = .number n
      | .string => us = [] ∧ e = .ofStringLexeme t.lexeme
      | .symbol => us = [] ∧ e = .symbol t.lexeme
      | .openParen => ∃ vs c, us = vs ++ [c] ∧ Derives (.form e) vs ∧ c.kind = .closeParen
      | _ => False := by
  cases h with
  | number ht => exact ⟨_, _, rfl, by rw [ht]; exact ⟨rfl, rfl⟩⟩
  | string ht => exact ⟨_, _, rfl, by rw [ht]; exact ⟨rfl, rfl⟩⟩
  | symbol ht => exact ⟨_, _, rfl, by rw [ht]; exact ⟨rfl, rfl⟩⟩
  | parens ho h hc => exact ⟨_, _, rfl, by rw [ho]; exact ⟨_, _, rfl, h, hc⟩⟩

/-- The first token of a form tells its rule. -/
theorem Derives.form_cases {e : Expr} {ts : List Token} (h : Derives (.form e) ts) :
    ∃ t us, ts = t :: us ∧
      match t.kind with
      | .keyword .setq => ∃ x v vs, us = x :: vs ∧ e = .assign x.lexeme v ∧ Derives (.expr v) vs
      | .keyword .ifElse => ∃ test yes no vs ws xs, us = vs ++ ws ++ xs ∧ e = .cond test yes no ∧
          Derives (.expr test) vs ∧ Derives (.expr yes) ws ∧ Derives (.expr no) xs
      | .keyword .print => ∃ v, e = .print v ∧ Derives (.expr v) us
      | .keyword .defun => ∃ f o ps c b vs, us = f :: o :: ps ++ c :: vs ∧
          e = .defun f.lexeme (ps.map (·.lexeme)) b ∧ (∀ p ∈ ps, p.kind = .symbol) ∧
            c.kind = .closeParen ∧ Derives (.expr b) vs
      | .symbol => ∃ es, e = .call t.lexeme es ∧ Derives (.sequence es) us
      | .operator op => ∃ es, e = .prim op es ∧ Derives (.sequence es) us
      | _ => False := by
  cases h with
  | assign hk _ hv => exact ⟨_, _, rfl, by rw [hk]; exact ⟨_, _, _, rfl, rfl, hv⟩⟩
  | cond hk ht hy hn =>
    exact ⟨_, _, rfl, by rw [hk]; exact ⟨_, _, _, _, _, _, rfl, rfl, ht, hy, hn⟩⟩
  | print hk hv => exact ⟨_, _, rfl, by rw [hk]; exact ⟨_, rfl, hv⟩⟩
  | defun hk _ _ hps hc hb =>
    exact ⟨_, _, rfl, by rw [hk]; exact ⟨_, _, _, _, _, _, rfl, rfl, hps, hc, hb⟩⟩
  | call hf hes => exact ⟨_, _, rfl, by rw [hf]; exact ⟨_, rfl, hes⟩⟩
  | prim hk _ hes => exact ⟨_, _, rfl, by rw [hk]; exact ⟨_, rfl, hes⟩⟩

theorem Derives.head_ne_closeParen {e : Expr} {ts : List Token} (h : Derives (.expr e) ts) :
    ∃ t us, ts = t :: us ∧ t.kind ≠ .closeParen := by
  obtain ⟨t, us, rfl, hrule⟩ := h.expr_cases
  refine ⟨t, us, rfl, fun hc => ?_⟩
  rw [hc] at hrule
  exact hrule

/-! ## One reading -/

/-- A form or a sequence is over where these tokens begin. -/
def Closes (ts : List Token) : Prop :=
  ∀ t ∈ ts.head?, t.kind = .closeParen

theorem closes_cons {c : Token} {ts : List Token} : Closes (c :: ts) ↔ c.kind = .closeParen := by
  simp [Closes]

theorem Derives.not_closes {e : Expr} {ts us r : List Token} (h : Derives (.expr e) ts) :
    ¬Closes (ts ++ us ++ r) := by
  obtain ⟨t, us, rfl, ht⟩ := h.head_ne_closeParen
  exact fun hr => ht (hr t rfl)

/-- Parameters end at the first closing parenthesis. -/
theorem params_unique {ps qs : List Token} {c d : Token} {x y : List Token}
    (hps : ∀ p ∈ ps, p.kind = .symbol) (hqs : ∀ q ∈ qs, q.kind = .symbol)
    (hc : c.kind = .closeParen) (hd : d.kind = .closeParen) (h : ps ++ c :: x = qs ++ d :: y) :
    ps = qs ∧ c = d ∧ x = y := by
  have htake (zs : List Token) (z : Token) (w : List Token) (hzs : ∀ p ∈ zs, p.kind = .symbol)
      (hz : z.kind = .closeParen) : (zs ++ z :: w).takeWhile (·.kind = .symbol) = zs := by
    rw [List.takeWhile_append_of_pos (by simpa using hzs),
      List.takeWhile_cons_of_neg (by simp [hz]), List.append_nil]
  obtain rfl : ps = qs := by rw [← htake ps c x hps hc, h, htake qs d y hqs hd]
  exact ⟨rfl, List.cons.inj (List.append_cancel_left h)⟩

/-- No other phrase of its sort begins a token list that begins with `ts`; forms and sequences
are looked at up to where they are over. -/
def DeterminedBy (ts : List Token) : Phrase → Prop
  | .expr e => ∀ e' ts' r r', Derives (.expr e') ts' → ts ++ r = ts' ++ r' → e = e' ∧ ts = ts'
  | .form e => ∀ e' ts' r r', Derives (.form e') ts' → Closes r → Closes r' →
      ts ++ r = ts' ++ r' → e = e' ∧ ts = ts'
  | .sequence es => ∀ es' ts' r r', Derives (.sequence es') ts' → Closes r → Closes r' →
      ts ++ r = ts' ++ r' → es = es' ∧ ts = ts'

/-- A phrase is determined by the tokens it begins with. Induction on one derivation; the other
one must take the same rule, since the first tokens agree. -/
theorem Derives.unique {ph : Phrase} {ts : List Token} (h : Derives ph ts) :
    ph.DeterminedBy ts := by
  induction h with
  | number ht | string ht | symbol ht =>
    intro e' ts' r r' h' heq
    obtain ⟨t', us, rfl, hrule⟩ := h'.expr_cases
    obtain ⟨rfl, _⟩ := List.cons.inj heq
    rw [ht] at hrule
    obtain ⟨rfl, rfl⟩ := hrule
    exact ⟨rfl, rfl⟩
  | parens ho _ hc ih =>
    intro e' ts' r r' h' heq
    obtain ⟨t', us, rfl, hrule⟩ := h'.expr_cases
    simp only [List.cons_append, List.append_assoc, List.cons.injEq] at heq
    obtain ⟨rfl, heq⟩ := heq
    rw [ho] at hrule
    obtain ⟨vs, c', rfl, h', hc'⟩ := hrule
    rw [List.append_assoc] at heq
    obtain ⟨rfl, rfl⟩ := ih _ _ _ _ h' (closes_cons.2 hc) (closes_cons.2 hc') heq
    obtain ⟨rfl, _⟩ := List.cons.inj (List.append_cancel_left heq)
    exact ⟨rfl, rfl⟩
  | assign hk _ _ ih =>
    intro e' ts' r r' h' _ _ heq
    obtain ⟨t', us, rfl, hrule⟩ := h'.form_cases
    obtain ⟨rfl, htail⟩ := List.cons.inj heq
    rw [hk] at hrule
    obtain ⟨x, v, vs, rfl, rfl, hv⟩ := hrule
    obtain ⟨rfl, hvalue⟩ := List.cons.inj htail
    obtain ⟨rfl, rfl⟩ := ih _ _ _ _ hv hvalue
    exact ⟨rfl, rfl⟩
  | cond hk _ _ _ iht ihy ihn =>
    intro e' ts' r r' h' _ _ heq
    obtain ⟨t', us, rfl, hrule⟩ := h'.form_cases
    simp only [List.cons_append, List.append_assoc, List.cons.injEq] at heq
    obtain ⟨rfl, heq⟩ := heq
    rw [hk] at hrule
    obtain ⟨test, yes, no, vs, ws, xs, rfl, rfl, ht, hy, hn⟩ := hrule
    rw [List.append_assoc, List.append_assoc] at heq
    obtain ⟨rfl, rfl⟩ := iht _ _ _ _ ht heq
    have heq := List.append_cancel_left heq
    obtain ⟨rfl, rfl⟩ := ihy _ _ _ _ hy heq
    have heq := List.append_cancel_left heq
    obtain ⟨rfl, rfl⟩ := ihn _ _ _ _ hn heq
    exact ⟨rfl, rfl⟩
  | print hk _ ih =>
    intro e' ts' r r' h' _ _ heq
    obtain ⟨t', us, rfl, hrule⟩ := h'.form_cases
    obtain ⟨rfl, htail⟩ := List.cons.inj heq
    rw [hk] at hrule
    obtain ⟨v, rfl, hv⟩ := hrule
    obtain ⟨rfl, rfl⟩ := ih _ _ _ _ hv htail
    exact ⟨rfl, rfl⟩
  | defun hk _ _ hps hc _ ih =>
    intro e' ts' r r' h' _ _ heq
    obtain ⟨t', us, rfl, hrule⟩ := h'.form_cases
    simp only [List.cons_append, List.append_assoc, List.cons.injEq] at heq
    obtain ⟨rfl, heq⟩ := heq
    rw [hk] at hrule
    obtain ⟨f, o, ps, c, b, vs, rfl, rfl, hps', hc', hb⟩ := hrule
    simp only [List.cons_append, List.append_assoc, List.cons.injEq] at heq
    obtain ⟨rfl, rfl, heq⟩ := heq
    obtain ⟨rfl, rfl, htail⟩ := params_unique hps hps' hc hc' heq
    obtain ⟨rfl, rfl⟩ := ih _ _ _ _ hb htail
    exact ⟨rfl, rfl⟩
  | call hf _ ih =>
    intro e' ts' r r' h' hr hr' heq
    obtain ⟨t', us, rfl, hrule⟩ := h'.form_cases
    obtain ⟨rfl, htail⟩ := List.cons.inj heq
    rw [hf] at hrule
    obtain ⟨es, rfl, hes⟩ := hrule
    obtain ⟨rfl, rfl⟩ := ih _ _ _ _ hes hr hr' htail
    exact ⟨rfl, rfl⟩
  | prim hk _ _ ih =>
    intro e' ts' r r' h' hr hr' heq
    obtain ⟨t', us, rfl, hrule⟩ := h'.form_cases
    obtain ⟨rfl, htail⟩ := List.cons.inj heq
    rw [hk] at hrule
    obtain ⟨es, rfl, hes⟩ := hrule
    obtain ⟨rfl, rfl⟩ := ih _ _ _ _ hes hr hr' htail
    exact ⟨rfl, rfl⟩
  | nil =>
    intro es' ts' r r' h' hr _ heq
    cases h' with
    | nil => exact ⟨rfl, rfl⟩
    | cons he' _ =>
      rw [List.nil_append] at heq
      exact (he'.not_closes (heq ▸ hr)).elim
  | cons he _ ihe ihes =>
    intro es' ts' r r' h' hr hr' heq
    cases h' with
    | nil =>
      rw [List.nil_append] at heq
      exact (he.not_closes (heq ▸ hr')).elim
    | cons he' hes' =>
      rw [List.append_assoc, List.append_assoc] at heq
      obtain ⟨rfl, rfl⟩ := ihe _ _ _ _ he' heq
      obtain ⟨rfl, rfl⟩ := ihes _ _ _ _ hes' hr hr' (List.append_cancel_left heq)
      exact ⟨rfl, rfl⟩

end Phrase

/-- The tokens spell the program: one expression or more. -/
def Program.Derives (p : Program) (ts : List Token) : Prop :=
  p ≠ [] ∧ Phrase.Derives (.sequence p) ts

/-- The grammar is unambiguous. -/
theorem Program.derives_unique {p q : Program} {ts : List Token} (hp : p.Derives ts)
    (hq : q.Derives ts) : p = q := by
  have hnothing : Phrase.Closes [] := by simp [Phrase.Closes]
  exact (hp.2.unique _ _ [] [] hq.2 hnothing hnothing rfl).1

end PrefixLisp
