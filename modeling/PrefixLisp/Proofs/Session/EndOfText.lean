import PrefixLisp.Proofs.Expr.Viable
import PrefixLisp.Proofs.Token.Blanked
import PrefixLisp.Proofs.Token.Pieces
import PrefixLisp.Session

/-
  Where the end of a text is reported.

  A report about the end is made on the line where the last token begins, as many columns behind its
  beginning as it has characters. That is the place just behind the token, as long as the token
  stays on this line (`Position.advance_eq_iff`). Of all tokens only string literals need not
  (`Token.Kind.newline_not_mem`). Behind a literal with a newline in it the report is on a line too
  early, and behind every other token it is where the token ends (`endOfText_reported_behind_iff`).
-/

namespace PrefixLisp

namespace Position

/-- A text is passed over on one line just if there is no newline in it. -/
theorem advance_eq_iff (p : Position) (text : List Char) :
    p.advance text = ⟨p.line, p.column + text.length⟩ ↔ '\n' ∉ text := by
  constructor
  · intro h
    have hline := congrArg Position.line h
    rw [line_advance] at hline
    exact List.count_eq_zero.1 (Nat.add_left_cancel hline)
  · intro h
    exact advance_of_ne_newline (fun c hc => ne_of_mem_of_not_mem hc h) p

end Position

/-- Tokens stay on their line, but for string literals. -/
theorem Token.Kind.newline_not_mem {k : Kind} {x : List Char} (h : k.IsSpelling x)
    (hk : k ≠ .string) : '\n' ∉ x := by
  have hword {y : List Char} (hy : Lexeme.IsWord y) : '\n' ∉ y :=
    hy.not_mem (by decide) (by decide)
  have hmarks : ∀ m ∈ Lexeme.marks, '\n' ∉ m := by decide
  have hfixed (hspelling : k.spelling? = some (.ofList x)) : '\n' ∉ x := by
    have hcases := spelling?_cases hspelling
    rw [String.toList_ofList] at hcases
    rcases hcases with hmark | ⟨hy, _⟩
    · exact hmarks x hmark
    · exact hword hy
  cases k with
  | string => exact absurd rfl hk
  | number n => exact fun hmem => Lexer.ne_newline_of_isNumeral h.1 _ hmem rfl
  | symbol =>
    have hy := h.1
    rw [String.toList_ofList] at hy
    exact hword hy
  | operator op => exact hfixed (congrArg some h.symm)
  | keyword w => exact hfixed (congrArg some h.symm)
  | openParen =>
    cases h
    decide
  | closeParen =>
    cases h
    decide

/-! ## Reports -/

namespace Program

/-- A report about the end is made where the end is taken to be. -/
theorem pos_of_ofTokens_eq_error {limit : Nat} {ts : List Token} {e : ParseError}
    (h : Program.ofTokens limit ts = .error e) (hend : e.found = none) :
    e.pos = Token.endPosition ts := by
  cases hrun : Reader.start.run limit ts with
  | error e' =>
    rw [ofTokens_of_run_error hrun] at h
    cases h
    obtain ⟨_, t, _, r, _, _, ht⟩ := Reader.run_eq_error hrun
    have hfound := (Reader.reportsOn_step limit r t e ht).1
    rw [hend] at hfound
    cases hfound
  | ok r =>
    rw [ofTokens_of_run hrun] at h
    split at h <;> cases h
    rfl

theorem ofTokens_eq_error_of_ofSource {config : Config} {source : String} {e : ParseError}
    (h : Program.ofSource config source = .error (.parse e)) :
    Program.ofTokens config.nestingLimit (tokenize source).1 = .error e := by
  unfold ofSource at h
  split at h
  rename_i tokens errors htokens
  rw [htokens]
  split at h
  · cases h
  · cases hread : Program.ofTokens config.nestingLimit tokens with
    | ok p =>
      rw [hread] at h
      cases h
    | error e' =>
      rw [hread] at h
      cases h
      rfl

end Program

/-- A text ends before its program does. The report is on the line where the last token begins, as
many columns behind its beginning as it has characters. This is the place just behind the token if
and only if there is no newline in the token; and if there is one, the token is a string literal. -/
theorem endOfText_reported_behind_iff (config : Config) (source : String) (e : ParseError)
    (h : (Session.new config).parse source = .error (.parse e)) (hend : e.found = none)
    (hne : (tokenize source).1 ≠ []) :
    ∃ before t after, (tokenize source).1.getLast? = some t ∧
      source.toList = before ++ t.lexeme.toList ++ after ∧ t.pos = .behind before ∧
      e.pos = ⟨t.pos.line, t.pos.column + t.lexeme.length⟩ ∧
      (e.pos = .behind (before ++ t.lexeme.toList) ↔ '\n' ∉ t.lexeme.toList) ∧
      ('\n' ∈ t.lexeme.toList → t.kind = .string) := by
  obtain ⟨t, hlast⟩ : ∃ t, (tokenize source).1.getLast? = some t :=
    ⟨_, List.getLast?_eq_some_getLast hne⟩
  have hmem : t ∈ (tokenize source).1 := List.mem_of_getLast? hlast
  obtain ⟨before, after, hsource, hplace⟩ := exists_place_of_mem_tokenize hmem
  have hpos : e.pos = ⟨t.pos.line, t.pos.column + t.lexeme.length⟩ := by
    rw [Program.pos_of_ofTokens_eq_error (Program.ofTokens_eq_error_of_ofSource h) hend,
      Token.endPosition, hlast]
  refine ⟨before, t, after, hlast, hsource, hplace, hpos, ?_, fun hnewline => ?_⟩
  · rw [← Position.advance_start, Position.advance_append, Position.advance_start, ← hplace, hpos,
      ← String.length_toList, eq_comm]
    exact Position.advance_eq_iff t.pos t.lexeme.toList
  · by_contra hkind
    exact Token.Kind.newline_not_mem (isSpelling_of_mem_tokenize hmem) hkind hnewline

/-- A string literal over two lines, read up to its end: the report is on the first of them. -/
theorem endOfText_reported_too_early :
    let source := "(print \"a\nb\""
    (Session.new {}).parse source = .error (.parse ⟨.unexpectedEnd, .close, none, ⟨1, 13⟩⟩) ∧
      (tokenize source).1.getLast? = some ⟨.string, "\"a\nb\"", ⟨1, 8⟩⟩ ∧
      Position.behind source.toList = ⟨2, 3⟩ := by
  decide +kernel

/-- Behind a comment and in lenient mode, the last token that is left counts. -/
theorem endOfText_reported_behind_iff_lenient :
    let config : Config := { strict := false }
    let source := "(f \"é\n\" # x ; and\n"
    let e : ParseError := ⟨.unexpectedEnd, .close, none, ⟨2, 6⟩⟩
    (Session.new config).parse source = .error (.parse e) ∧ e.found = none ∧
      (tokenize source).1 ≠ [] ∧
      ∃ before t after, (tokenize source).1.getLast? = some t ∧
        source.toList = before ++ t.lexeme.toList ++ after ∧ t.pos = .behind before ∧
        e.pos = ⟨t.pos.line, t.pos.column + t.lexeme.length⟩ ∧
        (e.pos = .behind (before ++ t.lexeme.toList) ↔ '\n' ∉ t.lexeme.toList) ∧
        ('\n' ∈ t.lexeme.toList → t.kind = .string) := by
  intro config source e
  have h : (Session.new config).parse source = .error (.parse e) := by decide +kernel
  have hne : (tokenize source).1 ≠ [] := by decide +kernel
  exact ⟨h, rfl, hne, endOfText_reported_behind_iff config source e h rfl hne⟩

end PrefixLisp
