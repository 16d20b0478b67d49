import PrefixLisp.Proofs.Token.Blanked
import PrefixLisp.Session

/-
  Lenient mode.

  Passing over lex errors comes to the same as reading, in strict mode, the text with spaces in
  their place (`lenient_parse_eq_strict_blank`): the same program, or the same parse error in the
  same place.
-/

namespace PrefixLisp

/-- Without lex errors, the mode plays no part. -/
theorem Program.ofSource_of_no_errors {source : String} (h : (tokenize source).2 = [])
    (config : Config) :
    Program.ofSource config source =
      (Program.ofTokens config.nestingLimit (tokenize source).1).mapError .parse := by
  unfold ofSource
  rcases htokens : tokenize source with ⟨tokens, errors⟩
  rw [htokens] at h
  cases h
  cases config.strict <;> rfl

/-- In lenient mode only the tokens count. -/
theorem Program.ofSource_of_lenient {config : Config} (h : config.strict = false)
    (source : String) :
    Program.ofSource config source =
      (Program.ofTokens config.nestingLimit (tokenize source).1).mapError .parse := by
  unfold ofSource
  rcases tokenize source with ⟨tokens, _ | ⟨e, errors⟩⟩
  · rw [h]
  · rw [h]

/-- Lenient mode is strict mode on the blanked text. The blanked text has no lex errors, and its
tokens are those of the text, places included. So reading a text in lenient mode gives what reading
the blanked text in strict mode gives; and without lex errors both modes agree on the text. -/
theorem lenient_parse_eq_strict_blank (source : String) :
    tokenize (blank source) = ((tokenize source).1, []) ∧
    (∀ config : Config, (Session.new { config with strict := false }).parse source =
      (Session.new { config with strict := true }).parse (blank source)) ∧
    ((tokenize source).2 = [] → ∀ config : Config,
      (Session.new { config with strict := false }).parse source =
        (Session.new { config with strict := true }).parse source) := by
  have htokens := tokenize_blank source
  refine ⟨htokens, fun config => ?_, fun hnone config => ?_⟩
  · have hnone : (tokenize (blank source)).2 = [] := congrArg Prod.snd htokens
    show Program.ofSource _ source = Program.ofSource _ (blank source)
    rw [Program.ofSource_of_lenient rfl, Program.ofSource_of_no_errors hnone, htokens]
    rfl
  · show Program.ofSource _ source = Program.ofSource _ source
    rw [Program.ofSource_of_lenient rfl, Program.ofSource_of_no_errors hnone]
    rfl

end PrefixLisp
