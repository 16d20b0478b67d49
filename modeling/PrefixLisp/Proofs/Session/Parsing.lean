import Mathlib.Data.List.Forall2
import PrefixLisp.Proofs.Expr.Reading
import PrefixLisp.Proofs.Expr.Tokens
import PrefixLisp.Session

/-
  Reading source texts as programs.

  A program is `WellFormed` for a configuration if there is something in it, all of it can be
  written down, its definitions name each parameter once, and it stays within the nesting limit.
  Whatever is read from a source text is well-formed (`Program.WellFormed.of_ofSource`), and the
  text of a program is read as this very program if and only if the program is well-formed
  (`parse_render_iff`).

  Reading and rendering keep every token: the text of the program that a source text is read as has
  the tokens of the source text, with its numbers in plain decimal notation (`tokenize_render`).

  In strict mode, two texts with a newline between them are read as the two programs, one behind
  the other (`Program.ofSource_newline`).
-/

namespace PrefixLisp

/-- A program that some source text can stand for. -/
structure Program.WellFormed (config : Config) (p : Program) : Prop where
  ne_nil : p ≠ []
  writable : ∀ e ∈ p, e.All Expr.Writable
  distinctParams : ∀ e ∈ p, e.All Expr.DistinctParams
  height_le : ∀ e ∈ p, e.height ≤ config.nestingLimit

namespace Program

variable {config : Config} {source : String} {p : Program}

theorem ofSource_eq_ok_iff :
    Program.ofSource config source = .ok p ↔
      (config.strict → (tokenize source).2 = []) ∧
        Program.ofTokens config.nestingLimit (tokenize source).1 = .ok p := by
  have hmap (r : Except ParseError Program) : r.mapError Error.parse = .ok p ↔ r = .ok p := by
    cases r <;> simp [Except.mapError]
  unfold ofSource
  rcases tokenize source with ⟨tokens, _ | ⟨e, errors⟩⟩
  · cases config.strict <;> simp [hmap]
  · cases config.strict <;> simp [hmap]

/-- A source text is a program just if its tokens derive the program, which stays within the
limits, and nothing was passed over in strict mode. -/
theorem ofSource_eq_ok_iff_fits :
    Program.ofSource config source = .ok p ↔
      (config.strict → (tokenize source).2 = []) ∧ p.Derives (tokenize source).1 ∧
        ∀ e ∈ p, e.Fits config.nestingLimit 0 := by
  rw [ofSource_eq_ok_iff, ofTokens_eq_ok_iff_fits]

theorem WellFormed.of_ofSource (h : Program.ofSource config source = .ok p) :
    p.WellFormed config := by
  obtain ⟨_, ⟨hne, hts⟩, hfits⟩ := ofSource_eq_ok_iff_fits.1 h
  refine ⟨hne, hts.writable fun t ht => isSpelling_of_mem_tokenize ht, fun e he => (hfits e he).2,
    fun e he => ?_⟩
  have := (hfits e he).1
  omega

theorem ofSource_render (h : p.WellFormed config) : Program.ofSource config p.render = .ok p := by
  obtain ⟨ts, hts, hstream⟩ := reads_render h.writable .start [] Lexeme.delimited_nil
  rw [List.append_nil, Lexer.stream_nil, List.append_nil] at hstream
  have htokens := tokenize_eq_iff.2 hstream
  rw [ofSource_eq_ok_iff_fits, htokens]
  refine ⟨fun _ => rfl, ⟨h.ne_nil, hts⟩, fun e he => ⟨?_, h.distinctParams e he⟩⟩
  rw [Nat.zero_add]
  exact h.height_le e he

theorem tokenize_of_strict (hstrict : config.strict) (h : Program.ofSource config source = .ok p) :
    tokenize source = ((tokenize source).1, []) := by
  rw [← (ofSource_eq_ok_iff.1 h).1 hstrict]

/-- The tokens of two texts with a newline between them: those of the first one, and behind them
those of the second one, which stands further down. -/
theorem tokenize_newline {more : String} {ts us : List Token} (hts : tokenize source = (ts, []))
    (hus : tokenize more = (us, [])) :
    tokenize (source ++ "\n" ++ more) =
      (ts ++ us.map (Token.below (1 + source.toList.count '\n')), []) := by
  have hstream := tokenize_eq_iff.1 hts
  have hquote : ∀ p, .error ⟨.illegalCharacter '"', p⟩ ∉ Lexer.stream .start source.toList := by
    intro p hp
    rw [hstream] at hp
    obtain ⟨t, _, ht⟩ := List.mem_map.1 hp
    cases ht
  rw [tokenize_eq_iff, Lexer.stream_newline hquote, hstream, tokenize_eq_iff.1 hus,
    List.map_append, List.map_map, List.map_map]
  rfl

theorem ofSource_newline {more : String} {q : Program} (hstrict : config.strict)
    (hp : Program.ofSource config source = .ok p) (hq : Program.ofSource config more = .ok q) :
    Program.ofSource config (source ++ "\n" ++ more) = .ok (p ++ q) := by
  have htokens := tokenize_newline (tokenize_of_strict hstrict hp) (tokenize_of_strict hstrict hq)
  obtain ⟨_, ⟨hne, hts⟩, hfits⟩ := ofSource_eq_ok_iff_fits.1 hp
  obtain ⟨_, ⟨_, hus⟩, hfits'⟩ := ofSource_eq_ok_iff_fits.1 hq
  rw [ofSource_eq_ok_iff_fits, htokens]
  refine ⟨fun _ => rfl, ⟨List.append_ne_nil_of_left_ne_nil hne q,
    hts.append (hus.map _ (fun _ => rfl) fun _ => rfl)⟩, fun e he => ?_⟩
  rcases List.mem_append.1 he with he | he
  · exact hfits e he
  · exact hfits' e he

end Program

/-- Rendering and reading are inverse on exactly the well-formed programs. -/
theorem parse_render_iff (config : Config) (p : Program) :
    (Session.new config).parse p.render = .ok p ↔ p.WellFormed config :=
  ⟨Program.WellFormed.of_ofSource, Program.ofSource_render⟩

/-- The text of a program that was read from a source text has no lex errors. Its tokens are those
of the source text, one for one, of the same kinds and with the same lexemes, but numbers are in
plain decimal notation. -/
theorem tokenize_render (config : Config) (source : String) (p : Program)
    (h : (Session.new config).parse source = .ok p) :
    (tokenize p.render).2 = [] ∧
      List.Forall₂ (fun t u => u.kind = t.kind ∧ u.lexeme = t.plainLexeme) (tokenize source).1
        (tokenize p.render).1 := by
  have hwf : p.WellFormed config := Program.WellFormed.of_ofSource h
  obtain ⟨_, ⟨_, hderives⟩, _⟩ := Program.ofSource_eq_ok_iff_fits.1 h
  have hsource : (tokenize source).1.map Token.plain = Expr.tokensAll p :=
    hderives.spelledBy fun t ht => isSpelling_of_mem_tokenize ht
  obtain ⟨us, hus, hstream⟩ := Program.reads_tokens hwf.writable .start [] Lexeme.delimited_nil
  rw [List.append_nil, Lexer.stream_nil, List.append_nil] at hstream
  have hsame : List.Forall₂ Eq ((tokenize source).1.map Token.plain) (us.map Token.unplaced) := by
    rw [List.forall₂_eq_eq_eq]
    exact hsource.trans hus.symm
  rw [List.forall₂_map_left_iff, List.forall₂_map_right_iff] at hsame
  rw [tokenize_eq_iff.2 hstream]
  refine ⟨rfl, hsame.imp fun t u htu => ?_⟩
  exact ⟨(congrArg Prod.fst htu).symm, (congrArg Prod.snd htu).symm⟩

/-- An illegal character that is passed over, and numbers that are not in plain notation. -/
theorem tokenize_render_lenient :
    let p : Program :=
      [.call "f" [.number ⟨7, by decide⟩, .number ⟨0, by decide⟩], .print (.string "a b")]
    let source := "(f 007 # -0) ; zero\n(print \"a b\")"
    (Session.new { strict := false }).parse source = .ok p ∧
      (tokenize p.render).2 = [] ∧
      List.Forall₂ (fun t u => u.kind = t.kind ∧ u.lexeme = t.plainLexeme) (tokenize source).1
        (tokenize p.render).1 := by
  have h : (Session.new { strict := false }).parse "(f 007 # -0) ; zero\n(print \"a b\")" =
      .ok [.call "f" [.number ⟨7, by decide⟩, .number ⟨0, by decide⟩], .print (.string "a b")] := by
    decide +kernel
  exact ⟨h, tokenize_render { strict := false } _ _ h⟩

end PrefixLisp
