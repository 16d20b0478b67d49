import PrefixLisp.Expr.Render
import PrefixLisp.Proofs.Expr.Grammar
import PrefixLisp.Proofs.Expr.Occurrence
import PrefixLisp.Proofs.Token.Stream

/-
  The text of an expression, read by the lexer.

  `Reads x L` says that wherever the text `x` stands before a delimiter, the lexer takes exactly
  `x` and gives a token list of `L` for it. Texts are put together with the rules `Reads.append`,
  `Reads.parens` and their like, which follow the way the renderer puts texts together.

  An expression is `Writable` if its own names, string and operands can be written down at all.
  The text of an expression that is writable throughout reads as a derivation of it
  (`Expr.readsBack_of_writable`), and the lexer's tokens derive no other expressions
  (`Phrase.Derives.writable`).
-/

namespace PrefixLisp

open Lexeme Trivia Lexer

/-! ## Numbers -/

namespace Number

theorem toList_render (a : Number) :
    a.render.toList =
      if 0 ≤ a.val then Nat.toDigits 10 a.val.toNat else '-' :: Nat.toDigits 10 (-a.val).toNat := by
  unfold render
  rw [Int.repr_eq_if]
  split
  · exact Nat.toList_repr
  · rw [String.toList_append, Nat.toList_repr]
    rfl

theorem isDigit_toDigits {n : Nat} {d : Char} (h : d ∈ Nat.toDigits 10 n) : d.isDigit :=
  Nat.isDigit_of_mem_toDigits (by decide) (by decide) h

theorem isNumeral_render (a : Number) : IsNumeral a.render.toList := by
  rw [toList_render]
  split
  · exact ⟨_, Nat.toDigits_ne_nil, fun _ => isDigit_toDigits, .inl rfl⟩
  · exact ⟨_, Nat.toDigits_ne_nil, fun _ => isDigit_toDigits, .inr rfl⟩

theorem literalValue_toDigits (n : Nat) : literalValue (Nat.toDigits 10 n) = n := by
  have hvalue : (Nat.ofDigitChars 10 (Nat.toDigits 10 n) 0 : Int) = n :=
    congrArg Int.ofNat Nat.ofDigitChars_ten_toDigits
  unfold literalValue
  split
  · rename_i ds heq
    have := isDigit_toDigits (n := n) (heq ▸ List.mem_cons_self)
    exact absurd this (by decide)
  · exact hvalue

/-- The plain text of a number denotes it. -/
theorem ofLiteral?_render (a : Number) : ofLiteral? a.render.toList = some a := by
  unfold ofLiteral?
  rw [ofInt?_eq_some_iff, toList_render]
  split
  · rw [literalValue_toDigits, Int.toNat_of_nonneg ‹_›]
  · have hneg : 0 ≤ -a.val := by omega
    show a.val = -(Nat.ofDigitChars 10 (Nat.toDigits 10 (-a.val).toNat) 0 : Int)
    rw [Nat.ofDigitChars_ten_toDigits, Int.toNat_of_nonneg hneg, Int.neg_neg]

theorem isSpelling_render (a : Number) : (Token.Kind.number a).IsSpelling a.render.toList :=
  ⟨isNumeral_render a, ofLiteral?_render a⟩

end Number

/-! ## Texts that the lexer takes -/

/-- Wherever the text stands before a delimiter, the lexer takes just this text, and its tokens
are one of the lists of `L`. -/
def Reads (x : List Char) (L : List Token → Prop) : Prop :=
  ∀ pos rest, Delimited rest →
    ∃ ts, L ts ∧ stream pos (x ++ rest) = ts.map .ok ++ stream (pos.advance x) rest

/-- The lists of one token, of a kind and with a lexeme. -/
def One (k : Token.Kind) (s : String) (ts : List Token) : Prop :=
  ∃ t, ts = [t] ∧ t.kind = k ∧ t.lexeme = s

/-- A list of `L` and behind it a list of `M`. -/
def Then (L M : List Token → Prop) (ts : List Token) : Prop :=
  ∃ us vs, ts = us ++ vs ∧ L us ∧ M vs

section

variable {x y : List Char} {L M : List Token → Prop}

theorem Reads.mono (h : Reads x L) (hLM : ∀ ts, L ts → M ts) : Reads x M := by
  intro pos rest hrest
  obtain ⟨ts, hts, hstream⟩ := h pos rest hrest
  exact ⟨ts, hLM ts hts, hstream⟩

theorem reads_nil (h : L []) : Reads [] L :=
  fun _ _ _ => ⟨[], h, rfl⟩

theorem reads_spelling {k : Token.Kind} (h : k.IsSpelling x) : Reads x (One k (.ofList x)) :=
  fun pos _ hrest => ⟨[⟨k, .ofList x, pos⟩], ⟨_, rfl, rfl, rfl⟩, stream_spelling h hrest pos⟩

theorem delimits_of_isBlank {c : Char} (h : isBlank c) : Delimits c := by
  simp only [isBlank, Bool.or_eq_true, decide_eq_true_eq, or_assoc] at h
  obtain rfl | rfl | rfl | rfl := h <;> decide

/-- Two texts with a blank between them. -/
theorem Reads.append {c : Char} (hc : isBlank c) (hx : Reads x L) (hy : Reads y M) :
    Reads (x ++ c :: y) (Then L M) := by
  intro pos rest hrest
  obtain ⟨us, hus, hstream⟩ := hx pos (c :: (y ++ rest)) (delimited_cons.2 (delimits_of_isBlank hc))
  obtain ⟨vs, hvs, hstream'⟩ := hy ((pos.advance x).step c) rest hrest
  refine ⟨us ++ vs, ⟨us, vs, rfl, hus, hvs⟩, ?_⟩
  rw [List.append_assoc, List.cons_append, hstream, stream_blank hc, hstream', List.map_append,
    List.append_assoc, Position.advance_append]
  rfl

theorem Reads.space (hx : Reads x L) (hy : Reads y M) : Reads (x ++ ' ' :: y) (Then L M) :=
  hx.append rfl hy

/-- A text between two parentheses. -/
theorem Reads.parens (hx : Reads x L) :
    Reads ('(' :: x ++ [')']) (Then (One .openParen "(") (Then L (One .closeParen ")"))) := by
  intro pos rest _
  obtain ⟨us, hus, hstream⟩ := hx (pos.step '(') (')' :: rest) (delimited_cons.2 (by decide))
  refine ⟨[⟨.openParen, "(", pos⟩] ++ (us ++ [⟨.closeParen, ")", (pos.step '(').advance x⟩]),
    ⟨_, _, rfl, ⟨_, rfl, rfl, rfl⟩, _, _, rfl, hus, _, rfl, rfl, rfl⟩, ?_⟩
  rw [List.append_assoc, List.cons_append, stream_openParen, List.singleton_append, hstream,
    stream_closeParen, Position.advance_append, List.map_append, List.map_append, List.append_assoc,
    List.append_assoc]
  rfl

/-- Texts with the same blank between any two neighbours. -/
theorem reads_intercalate {α : Type} (text : α → String) {L : α → List Token → Prop}
    {M : List α → List Token → Prop} {sep : String} {c : Char} (hsep : sep.toList = [c])
    (hc : isBlank c) (hnil : M [] [])
    (hcons : ∀ {a as us vs}, L a us → M as vs → M (a :: as) (us ++ vs)) {as : List α}
    (h : ∀ a ∈ as, Reads (text a).toList (L a)) :
    Reads (sep.intercalate (as.map text)).toList (M as) := by
  induction as with
  | nil => exact reads_nil hnil
  | cons a as ih =>
    have ha := h a List.mem_cons_self
    have has := ih fun b hb => h b (List.mem_cons_of_mem _ hb)
    cases as with
    | nil =>
      rw [List.map_singleton, String.intercalate_singleton]
      refine ha.mono fun us hus => ?_
      have := hcons hus hnil
      rwa [List.append_nil] at this
    | cons b as =>
      rw [List.map_cons, List.map_cons, String.intercalate_cons_cons, ← List.map_cons,
        String.toList_append, String.toList_append, hsep, List.append_assoc, List.singleton_append]
      refine (ha.append hc has).mono fun ts hts => ?_
      obtain ⟨us, vs, rfl, hus, hvs⟩ := hts
      exact hcons hus hvs

end

/-! ## The text of an expression -/

/-- Its own names are names, its string holds no quote, and its operator has an operand. -/
def Expr.Writable : Expr → Prop
  | .number _ | .cond _ _ _ | .print _ => True
  | .string s => '"' ∉ s.toList
  | .symbol name | .assign name _ | .call name _ => IsName name
  | .defun name params _ => IsName name ∧ ∀ p ∈ params, IsName p
  | .prim _ args => args ≠ []

theorem reads_spelled {k : Token.Kind} {s : String} (h : k.IsSpelling s.toList) :
    Reads s.toList (One k s) := by
  have := reads_spelling h
  rwa [String.ofList_toList] at this

theorem reads_name {s : String} (h : IsName s) : Reads s.toList (One .symbol s) := by
  refine reads_spelled ?_
  show IsName _
  rwa [String.ofList_toList]

theorem reads_keyword (k : Keyword) : Reads k.spelling.toList (One (.keyword k) k.spelling) :=
  reads_spelled String.ofList_toList

theorem reads_operator (op : Operator) : Reads op.symbol.toList (One (.operator op) op.symbol) :=
  reads_spelled String.ofList_toList

/-- A symbol for each name. -/
def Names (ps : List String) (ts : List Token) : Prop :=
  (∀ t ∈ ts, t.kind = .symbol) ∧ ts.map (·.lexeme) = ps

theorem Names.cons {p : String} {ps : List String} {us vs : List Token} (hp : One .symbol p us)
    (hps : Names ps vs) : Names (p :: ps) (us ++ vs) := by
  obtain ⟨t, rfl, ht, rfl⟩ := hp
  obtain ⟨hkinds, rfl⟩ := hps
  exact ⟨List.forall_mem_cons.2 ⟨ht, hkinds⟩, rfl⟩

theorem reads_params {ps : List String} (h : ∀ p ∈ ps, IsName p) :
    Reads (" ".intercalate ps).toList (Names ps) := by
  have hspace : " ".toList = [' '] := rfl
  have hreads := reads_intercalate (M := Names) id hspace rfl ⟨List.forall_mem_nil _, rfl⟩
    Names.cons fun p hp => reads_name (h p hp)
  rwa [List.map_id] at hreads

namespace Expr

theorem ofStringLexeme_quoted (s : String) :
    ofStringLexeme (.ofList ('"' :: s.toList ++ ['"'])) = .string s := by
  unfold ofStringLexeme
  rw [String.toList_ofList]
  simp

/-- The lexer takes the text of the expression, and its tokens derive the expression. -/
def ReadsBack (e : Expr) : Prop :=
  Reads e.render.toList (Phrase.Derives (.expr e))

/-- It is enough to look at what stands between the parentheses of a form. -/
theorem readsBack_form {e : Expr} {x : List Char} {L : List Token → Prop} (hx : Reads x L)
    (htext : e.render.toList = '(' :: x ++ [')'])
    (hL : ∀ ts, L ts → Phrase.Derives (.form e) ts) : ReadsBack e := by
  unfold ReadsBack
  rw [htext]
  refine hx.parens.mono fun ts hts => ?_
  obtain ⟨_, _, rfl, ⟨o, rfl, ho, _⟩, us, _, rfl, hus, c, rfl, hc, _⟩ := hts
  exact .parens ho (hL us hus) hc

/-- A text and, behind it, the arguments. -/
theorem reads_renderArgs {x : List Char} {L : List Token → Prop} {K : Expr → List Token → Prop}
    {M : List Expr → List Token → Prop} (hnil : M [] [])
    (hcons : ∀ {e es us vs}, K e us → M es vs → M (e :: es) (us ++ vs)) {es : List Expr}
    (hx : Reads x L) (hes : ∀ e ∈ es, Reads e.render.toList (K e)) :
    Reads (x ++ (renderArgs es).toList) (Then L (M es)) := by
  induction es generalizing x L with
  | nil =>
    rw [renderArgs, String.toList_empty, List.append_nil]
    exact hx.mono fun ts hts => ⟨ts, [], (List.append_nil ts).symm, hts, hnil⟩
  | cons e es ih =>
    have he := hx.space (hes e List.mem_cons_self)
    have hargs := ih he fun e' he' => hes e' (List.mem_cons_of_mem _ he')
    have htext : x ++ (renderArgs (e :: es)).toList =
        x ++ ' ' :: e.render.toList ++ (renderArgs es).toList := by
      rw [renderArgs, String.toList_append, String.toList_append, List.append_assoc,
        List.append_assoc]
      rfl
    rw [htext]
    refine hargs.mono fun ts hts => ?_
    obtain ⟨_, ws, rfl, ⟨us, vs, rfl, hus, hvs⟩, hws⟩ := hts
    exact ⟨us, vs ++ ws, List.append_assoc us vs ws, hus, hcons hvs hws⟩

/-- A text and, behind it, arguments that read back. -/
theorem readsBack_renderArgs {x : List Char} {L : List Token → Prop} {es : List Expr}
    (hx : Reads x L) (hes : ∀ e ∈ es, ReadsBack e) :
    Reads (x ++ (renderArgs es).toList) (Then L (Phrase.Derives (.sequence es))) :=
  reads_renderArgs (M := fun es => Phrase.Derives (.sequence es)) .nil .cons hx hes

section

variable {name : String} {v : Expr} {args : List Expr}

theorem readsBack_number (n : Number) : ReadsBack (.number n) := by
  refine (reads_spelling n.isSpelling_render).mono fun ts hts => ?_
  obtain ⟨t, rfl, ht, _⟩ := hts
  exact .number ht

theorem readsBack_string {s : String} (h : '"' ∉ s.toList) : ReadsBack (.string s) := by
  have htext : (render (.string s)).toList = '"' :: s.toList ++ ['"'] := by simp [render]
  unfold ReadsBack
  rw [htext]
  refine (reads_spelling (k := .string) ⟨s.toList, rfl, h⟩).mono fun ts hts => ?_
  obtain ⟨t, rfl, ht, hlexeme⟩ := hts
  have hderives := Phrase.Derives.string ht
  rwa [hlexeme, ofStringLexeme_quoted] at hderives

theorem readsBack_symbol (h : IsName name) : ReadsBack (.symbol name) := by
  refine (reads_name h).mono fun ts hts => ?_
  obtain ⟨t, rfl, ht, rfl⟩ := hts
  exact .symbol ht

theorem readsBack_assign (hname : IsName name) (hv : ReadsBack v) :
    ReadsBack (.assign name v) := by
  have hreads := (reads_keyword .setq).space ((reads_name hname).space hv)
  refine readsBack_form hreads (by simp [render, Keyword.spelling]) fun ts hts => ?_
  obtain ⟨_, _, rfl, ⟨k, rfl, hk, _⟩, _, us, rfl, ⟨x, rfl, hx, rfl⟩, hus⟩ := hts
  exact .assign hk hx hus

theorem readsBack_cond {test yes no : Expr} (ht : ReadsBack test) (hy : ReadsBack yes)
    (hn : ReadsBack no) : ReadsBack (.cond test yes no) := by
  have hreads := (reads_keyword .ifElse).space (ht.space (hy.space hn))
  refine readsBack_form hreads (by simp [render, Keyword.spelling]) fun ts hts => ?_
  obtain ⟨_, _, rfl, ⟨k, rfl, hk, _⟩, ts, _, rfl, hts, us, vs, rfl, hus, hvs⟩ := hts
  have := Phrase.Derives.cond hk hts hus hvs
  rwa [List.append_assoc] at this

theorem readsBack_print (hv : ReadsBack v) : ReadsBack (.print v) := by
  have hreads := (reads_keyword .print).space hv
  refine readsBack_form hreads (by simp [render, Keyword.spelling]) fun ts hts => ?_
  obtain ⟨_, us, rfl, ⟨k, rfl, hk, _⟩, hus⟩ := hts
  exact .print hk hus

theorem readsBack_defun {params : List String} {body : Expr} (hname : IsName name)
    (hparams : ∀ p ∈ params, IsName p) (hb : ReadsBack body) :
    ReadsBack (.defun name params body) := by
  have hreads := (reads_keyword .defun).space
    ((reads_name hname).space ((reads_params hparams).parens.space hb))
  refine readsBack_form hreads (by simp [render, Keyword.spelling]) fun ts hts => ?_
  obtain ⟨_, _, rfl, ⟨k, rfl, hk, _⟩, _, _, rfl, ⟨f, rfl, hf, rfl⟩, _, us, rfl,
    ⟨_, _, rfl, ⟨o, rfl, ho, _⟩, ps, _, rfl, ⟨hps, rfl⟩, c, rfl, hc, _⟩, hus⟩ := hts
  have := Phrase.Derives.defun hk hf ho hps hc hus
  simpa using this

theorem readsBack_call (hname : IsName name) (hargs : ∀ e ∈ args, ReadsBack e) :
    ReadsBack (.call name args) := by
  have hreads := readsBack_renderArgs (reads_name hname) hargs
  refine readsBack_form hreads (by simp [render]) fun ts hts => ?_
  obtain ⟨_, us, rfl, ⟨f, rfl, hf, rfl⟩, hus⟩ := hts
  exact .call hf hus

theorem readsBack_prim {op : Operator} (hne : args ≠ []) (hargs : ∀ e ∈ args, ReadsBack e) :
    ReadsBack (.prim op args) := by
  have hreads := readsBack_renderArgs (reads_operator op) hargs
  refine readsBack_form hreads (by simp [render]) fun ts hts => ?_
  obtain ⟨_, us, rfl, ⟨k, rfl, hk, _⟩, hus⟩ := hts
  exact .prim hk hne hus

end

/-- The text of an expression that can be written down reads back. -/
theorem readsBack_of_writable {e : Expr} (h : e.All Writable) : ReadsBack e := by
  induction e using inductionOnChildren with
  | step e ih =>
    obtain ⟨hwrite, hall⟩ := all_iff.1 h
    have hchild : ∀ c ∈ e.children, ReadsBack c := fun c hc => ih c hc (hall c hc)
    cases e with
    | number n => exact readsBack_number n
    | string s => exact readsBack_string hwrite
    | symbol name => exact readsBack_symbol hwrite
    | assign name v => exact readsBack_assign hwrite (hchild v List.mem_cons_self)
    | cond test yes no =>
      obtain ⟨ht, hrest⟩ := List.forall_mem_cons.1 hchild
      obtain ⟨hy, hn⟩ := List.forall_mem_cons.1 hrest
      exact readsBack_cond ht hy (hn no List.mem_cons_self)
    | print v => exact readsBack_print (hchild v List.mem_cons_self)
    | defun name params body =>
      exact readsBack_defun hwrite.1 hwrite.2 (hchild body List.mem_cons_self)
    | call name args => exact readsBack_call hwrite hchild
    | prim op args => exact readsBack_prim hwrite hchild

end Expr

/-- The lexer takes the text of a program, and its tokens derive the program. -/
theorem Program.reads_render {p : Program} (h : ∀ e ∈ p, e.All Expr.Writable) :
    Reads p.render.toList (Phrase.Derives (.sequence p)) := by
  have hnewline : "\n".toList = ['\n'] := rfl
  exact reads_intercalate (M := fun es => Phrase.Derives (.sequence es)) Expr.render hnewline rfl
    .nil .cons fun e he => Expr.readsBack_of_writable (h e he)

/-! ## What the lexer's tokens derive -/

/-- The property holds of everything in the phrase. -/
def Phrase.All (P : Expr → Prop) : Phrase → Prop
  | .expr e | .form e => e.All P
  | .sequence es => ∀ e ∈ es, e.All P

theorem isName_lexeme {t : Token} (ht : t.kind = .symbol)
    (h : t.kind.IsSpelling t.lexeme.toList) : IsName t.lexeme := by
  rw [ht] at h
  have hname : IsName (.ofList t.lexeme.toList) := h
  rwa [String.ofList_toList] at hname

theorem exists_quoted {lexeme : String} (h : IsQuoted lexeme.toList) :
    ∃ s : String, lexeme = .ofList ('"' :: s.toList ++ ['"']) ∧ '"' ∉ s.toList := by
  obtain ⟨body, heq, hbody⟩ := h
  refine ⟨.ofList body, ?_, by rwa [String.toList_ofList]⟩
  rw [String.toList_ofList, ← heq, String.ofList_toList]

theorem ofStringLexeme_of_isQuoted {lexeme : String} (h : IsQuoted lexeme.toList) :
    ∃ s, Expr.ofStringLexeme lexeme = .string s ∧ '"' ∉ s.toList := by
  obtain ⟨s, rfl, hs⟩ := exists_quoted h
  exact ⟨s, Expr.ofStringLexeme_quoted s, hs⟩

/-- If every token is spelled as its kind is, then what they derive can be written down. -/
theorem Phrase.Derives.writable {ph : Phrase} {ts : List Token} (h : ph.Derives ts)
    (hts : ∀ t ∈ ts, t.kind.IsSpelling t.lexeme.toList) : ph.All Expr.Writable := by
  have hnil {e : Expr} (he : e.children = []) (hw : e.Writable) : e.All Expr.Writable :=
    Expr.all_iff.2 ⟨hw, by rw [he]; exact List.forall_mem_nil _⟩
  induction h with
  | number ht => exact hnil rfl trivial
  | @string t ht =>
    have hquoted := hts t List.mem_cons_self
    rw [ht] at hquoted
    obtain ⟨s, heq, hs⟩ := ofStringLexeme_of_isQuoted hquoted
    show Expr.All _ (Expr.ofStringLexeme t.lexeme)
    rw [heq]
    exact hnil rfl hs
  | @symbol t ht => exact hnil rfl (isName_lexeme ht (hts t List.mem_cons_self))
  | parens _ _ _ ih => exact ih fun t ht => hts t (by simp [ht])
  | @assign k x v ts _ hx _ ih =>
    have hv := ih fun t ht => hts t (by simp [ht])
    exact Expr.all_iff.2 ⟨isName_lexeme hx (hts x (by simp)), List.forall_mem_singleton.2 hv⟩
  | cond _ _ _ _ iht ihy ihn =>
    have ht := iht fun t ht => hts t (by simp [ht])
    have hy := ihy fun t ht => hts t (by simp [ht])
    have hn := ihn fun t ht => hts t (by simp [ht])
    refine Expr.all_iff.2 ⟨trivial, ?_⟩
    simp only [Expr.children, List.forall_mem_cons]
    exact ⟨ht, hy, hn, List.forall_mem_nil _⟩
  | print _ _ ih =>
    have hv := ih fun t ht => hts t (by simp [ht])
    exact Expr.all_iff.2 ⟨trivial, List.forall_mem_singleton.2 hv⟩
  | @defun k f o c ps b ts _ hf _ hps _ _ ih =>
    have hb := ih fun t ht => hts t (by simp [ht])
    refine Expr.all_iff.2 ⟨⟨isName_lexeme hf (hts f (by simp)), ?_⟩, List.forall_mem_singleton.2 hb⟩
    intro name hname
    obtain ⟨p, hp, rfl⟩ := List.mem_map.1 hname
    exact isName_lexeme (hps p hp) (hts p (by simp [hp]))
  | @call f es ts hf _ ih =>
    have hes := ih fun t ht => hts t (by simp [ht])
    exact Expr.all_iff.2 ⟨isName_lexeme hf (hts f (by simp)), hes⟩
  | prim _ hne _ ih =>
    have hes := ih fun t ht => hts t (by simp [ht])
    exact Expr.all_iff.2 ⟨hne, hes⟩
  | nil => exact List.forall_mem_nil _
  | cons _ _ ihe ihes =>
    have he := ihe fun t ht => hts t (by simp [ht])
    have hes := ihes fun t ht => hts t (by simp [ht])
    exact List.forall_mem_cons.2 ⟨he, hes⟩

end PrefixLisp
