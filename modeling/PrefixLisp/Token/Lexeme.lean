import PrefixLisp.Token.Basic

/-
  Lexemes: the shapes that a token's text can have.

  Each recogniser splits a text into the lexeme it begins with and the rest. A number takes an
  optional `-` with it, so it is tried before the operators; a two-character operator is tried
  before its first character. `split?` is their ordered choice, and `Token.Kind.ofLexeme?`
  says which kind of token a lexeme is. Letters and digits are the ASCII ones only.
-/

namespace PrefixLisp

namespace Lexeme

def isWordStart (c : Char) : Bool :=
  c.isAlpha || c = '_'

def isWordPart (c : Char) : Bool :=
  c.isAlphanum || c = '_'

/-- One or more digits. -/
def digits? (cs : List Char) : Option (List Char × List Char) :=
  let ds := cs.takeWhile Char.isDigit
  if ds.isEmpty then none else some (ds, cs.dropWhile Char.isDigit)

/-- An optional minus sign and one or more digits. -/
def number? : List Char → Option (List Char × List Char)
  | '-' :: cs => (digits? cs).map fun (ds, rest) => ('-' :: ds, rest)
  | cs => digits? cs

/-- A letter or underscore, then letters, digits and underscores. -/
def word? : List Char → Option (List Char × List Char)
  | [] => none
  | c :: cs =>
    if isWordStart c then some (c :: cs.takeWhile isWordPart, cs.dropWhile isWordPart) else none

/-- A quote, anything but quotes (newlines too), and a quote. -/
def string? : List Char → Option (List Char × List Char)
  | '"' :: cs =>
    match cs.dropWhile (· ≠ '"') with
    | [] => none
    | q :: rest => some ('"' :: cs.takeWhile (· ≠ '"') ++ [q], rest)
  | _ => none

/-- A parenthesis or an operator, the longer operator first. -/
def punctuation? : List Char → Option (List Char × List Char)
  | '>' :: '=' :: rest => some (['>', '='], rest)
  | '<' :: '=' :: rest => some (['<', '='], rest)
  | '=' :: '=' :: rest => some (['=', '='], rest)
  | '!' :: '=' :: rest => some (['!', '='], rest)
  | c :: rest => if c ∈ ['(', ')', '+', '-', '*', '/', '<', '>'] then some ([c], rest) else none
  | [] => none

/-- Split off the lexeme that a text begins with. -/
def split? (cs : List Char) : Option (List Char × List Char) :=
  number? cs <|> word? cs <|> string? cs <|> punctuation? cs

theorem digits?_append {cs x rest : List Char} (h : digits? cs = some (x, rest)) :
    cs = x ++ rest ∧ x ≠ [] := by
  unfold digits? at h
  simp only at h
  split at h
  · cases h
  · cases h
    exact ⟨List.takeWhile_append_dropWhile.symm, by simp_all⟩

theorem number?_append {cs x rest : List Char} (h : number? cs = some (x, rest)) :
    cs = x ++ rest ∧ x ≠ [] := by
  unfold number? at h
  split at h
  · obtain ⟨⟨ds, r⟩, hd, he⟩ := Option.map_eq_some_iff.1 h
    cases he
    exact ⟨by rw [(digits?_append hd).1]; rfl, List.cons_ne_nil _ _⟩
  · exact digits?_append h

theorem word?_append {cs x rest : List Char} (h : word? cs = some (x, rest)) :
    cs = x ++ rest ∧ x ≠ [] := by
  unfold word? at h
  split at h
  · cases h
  · split at h
    · cases h
      exact ⟨by rw [List.cons_append, List.takeWhile_append_dropWhile], List.cons_ne_nil _ _⟩
    · cases h

theorem string?_append {cs x rest : List Char} (h : string? cs = some (x, rest)) :
    cs = x ++ rest ∧ x ≠ [] := by
  unfold string? at h
  split at h
  · rename_i cs
    split at h
    · cases h
    · rename_i q r hq
      cases h
      refine ⟨?_, List.cons_ne_nil _ _⟩
      have := List.takeWhile_append_dropWhile (p := (· ≠ '"')) (l := cs)
      rw [hq] at this
      simpa using this.symm
  · cases h

theorem punctuation?_append {cs x rest : List Char} (h : punctuation? cs = some (x, rest)) :
    cs = x ++ rest ∧ x ≠ [] := by
  unfold punctuation? at h
  split at h
  case h_5 =>
    split at h
    · cases h; exact ⟨rfl, List.cons_ne_nil _ _⟩
    · cases h
  all_goals cases h
  all_goals exact ⟨rfl, List.cons_ne_nil _ _⟩

/-- A lexeme is a non-empty beginning of the text, and nothing is lost. -/
theorem split?_append {cs x rest : List Char} (h : split? cs = some (x, rest)) :
    cs = x ++ rest ∧ x ≠ [] := by
  unfold split? at h
  rcases hn : number? cs with _ | a
  · rcases hw : word? cs with _ | b
    · rcases hs : string? cs with _ | c
      · exact punctuation?_append (by simpa [hn, hw, hs] using h)
      · exact string?_append (hs.trans (by simpa [hn, hw, hs] using h))
    · exact word?_append (hw.trans (by simpa [hn, hw] using h))
  · exact number?_append (hn.trans (by simpa [hn] using h))

end Lexeme

/-- The kind of token that a lexeme is; `none` for a number literal that does not fit. -/
def Token.Kind.ofLexeme? (text : List Char) : Option Token.Kind :=
  match Token.Kind.ofSpelling? (String.ofList text) with
  | some kind => some kind
  | none =>
    match text with
    | '"' :: _ => some .string
    | c :: _ =>
      if c = '-' || c.isDigit then (Number.ofLiteral? text).map .number else some .symbol
    | [] => some .symbol

end PrefixLisp
