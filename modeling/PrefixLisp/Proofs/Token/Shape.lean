import PrefixLisp.Token.Lexeme

/-
  The shapes of lexemes, and which kind of token each shape is.

  A lexeme is a numeral, a word, a quoted text or a mark (`shape_of_split?`). `IsSpelling k x`
  says that `x` is a way to write a token of kind `k`: a symbol is a word that is not a keyword,
  a string is a quoted text, a number is a numeral of its value, and every other kind has one
  spelling. The lexer gives a lexeme the kind that it spells (`isSpelling_of_ofLexeme?`), and a
  spelling of a kind is a lexeme of that kind (`ofLexeme?_of_isSpelling`, `split?_of_isSpelling`).
-/

namespace PrefixLisp

namespace Lexeme

def IsNumeral (cs : List Char) : Prop :=
  ∃ ds : List Char, ds ≠ [] ∧ (∀ d ∈ ds, d.isDigit) ∧ (cs = ds ∨ cs = '-' :: ds)

def IsWord (cs : List Char) : Prop :=
  ∃ c w, cs = c :: w ∧ isWordStart c ∧ ∀ d ∈ w, isWordPart d

def IsQuoted (cs : List Char) : Prop :=
  ∃ body, cs = '"' :: body ++ ['"'] ∧ '"' ∉ body

/-- The parentheses and the operators. -/
def marks : List (List Char) :=
  [['('], [')'], ['+'], ['-'], ['*'], ['/'], ['>'], ['<'], ['>', '='], ['<', '='], ['=', '='],
    ['!', '=']]

theorem isNumeral_of_digits? {cs x rest : List Char} (h : digits? cs = some (x, rest)) :
    x ≠ [] ∧ ∀ d ∈ x, d.isDigit := by
  refine ⟨(digits?_append h).2, ?_⟩
  unfold digits? at h
  simp only at h
  split at h <;> cases h
  exact fun d hd => List.all_eq_true.1 List.all_takeWhile d hd

theorem isNumeral_of_number? {cs x rest : List Char} (h : number? cs = some (x, rest)) :
    IsNumeral x := by
  unfold number? at h
  split at h
  · obtain ⟨⟨ds, r⟩, hd, he⟩ := Option.map_eq_some_iff.1 h
    cases he
    have ⟨hne, hdigits⟩ := isNumeral_of_digits? hd
    exact ⟨ds, hne, hdigits, .inr rfl⟩
  · have ⟨hne, hdigits⟩ := isNumeral_of_digits? h
    exact ⟨x, hne, hdigits, .inl rfl⟩

theorem isWord_of_word? {cs x rest : List Char} (h : word? cs = some (x, rest)) : IsWord x := by
  unfold word? at h
  split at h
  · cases h
  · split at h <;> cases h
    rename_i c cs hc
    exact ⟨c, _, rfl, hc, fun d hd => List.all_eq_true.1 List.all_takeWhile d hd⟩

theorem isQuoted_of_string? {cs x rest : List Char} (h : string? cs = some (x, rest)) :
    IsQuoted x := by
  unfold string? at h
  split at h
  · split at h <;> cases h
    rename_i cs _ q hq
    have hquote : q = '"' := by
      have hhead := List.head?_dropWhile_not (· ≠ '"') cs
      rw [hq] at hhead
      simpa using hhead
    subst hquote
    refine ⟨_, rfl, fun hmem => ?_⟩
    have := List.all_eq_true.1 List.all_takeWhile _ hmem
    simp at this
  · cases h

theorem mem_marks_of_punctuation? {cs x rest : List Char}
    (h : punctuation? cs = some (x, rest)) : x ∈ marks := by
  unfold punctuation? at h
  split at h
  case h_5 =>
    split at h
    · rename_i hc
      cases h
      simp only [List.mem_cons, List.not_mem_nil, or_false] at hc
      obtain rfl | rfl | rfl | rfl | rfl | rfl | rfl | rfl := hc <;> decide
    · cases h
  all_goals cases h
  all_goals decide

theorem split?_eq_some_cases {cs x rest : List Char} (h : split? cs = some (x, rest)) :
    number? cs = some (x, rest) ∨ word? cs = some (x, rest) ∨ string? cs = some (x, rest) ∨
      punctuation? cs = some (x, rest) := by
  unfold split? at h
  rcases hn : number? cs with _ | a
  · rcases hw : word? cs with _ | b
    · rcases hs : string? cs with _ | c
      · exact .inr (.inr (.inr (by simpa [hn, hw, hs] using h)))
      · exact .inr (.inr (.inl (by simpa [hn, hw, hs] using h)))
    · exact .inr (.inl (by simpa [hn, hw] using h))
  · exact .inl (by simpa [hn] using h)

/-- A lexeme has one of four shapes. -/
theorem shape_of_split? {cs x rest : List Char} (h : split? cs = some (x, rest)) :
    IsNumeral x ∨ IsWord x ∨ IsQuoted x ∨ x ∈ marks :=
  (split?_eq_some_cases h).imp isNumeral_of_number? fun h =>
    h.imp isWord_of_word? fun h => h.imp isQuoted_of_string? mem_marks_of_punctuation?

end Lexeme

open Lexeme

/-- A word that can be a name. -/
def IsName (s : String) : Prop :=
  IsWord s.toList ∧ ∀ k : Keyword, s ≠ k.spelling

namespace Token.Kind

/-- The ways to write a token of a kind. -/
def IsSpelling : Kind → List Char → Prop
  | .symbol, x => IsName (.ofList x)
  | .string, x => IsQuoted x
  | .number n, x => IsNumeral x ∧ Number.ofLiteral? x = some n
  | .operator op, x => String.ofList x = op.symbol
  | .keyword k, x => String.ofList x = k.spelling
  | .openParen, x => x = ['(']
  | .closeParen, x => x = [')']

theorem isWord_keyword (k : Keyword) : IsWord k.spelling.toList := by
  cases k <;> exact ⟨_, _, rfl, by decide, List.all_eq_true.1 (by decide)⟩

/-- A fixed spelling is a mark, or a keyword, which is a word. -/
theorem spelling?_cases {k : Kind} {s : String} (h : k.spelling? = some s) :
    s.toList ∈ marks ∨ IsWord s.toList ∧ ∃ w, k = .keyword w := by
  cases k with
  | openParen | closeParen => cases h; exact .inl (by decide)
  | number | symbol | string => cases h
  | operator op =>
    cases h
    exact .inl (by cases op <;> decide)
  | keyword w =>
    cases h
    exact .inr ⟨isWord_keyword w, w, rfl⟩

theorem ofSpelling?_eq_some {k : Kind} {s : String} (h : k.spelling? = some s) :
    ofSpelling? s = some k := by
  have hall : ∀ k ∈ fixed, k.spelling?.bind ofSpelling? = some k := by decide
  have hk := hall k (mem_fixed_iff.2 ⟨s, h⟩)
  rwa [h] at hk

theorem spelling?_of_ofSpelling? {k : Kind} {s : String} (h : ofSpelling? s = some k) :
    k.spelling? = some s := by
  have := List.find?_some h
  simpa using this

end Token.Kind

/-! ## The shapes exclude each other -/

namespace Lexeme

theorem isDigit_eq_false_of_isWordStart {c : Char} (h : isWordStart c) : c.isDigit = false := by
  rw [Bool.eq_false_iff]
  intro hdigit
  have hnine : c.toNat ≤ 57 := (Char.isDigit_iff_toNat.1 hdigit).2
  rcases Bool.or_eq_true_iff.1 h with halpha | hunderscore
  · rcases Bool.or_eq_true_iff.1 halpha with hupper | hlower
    · have hle : 'A'.val ≤ c.val := (of_decide_eq_true hupper).1
      have : 65 ≤ c.toNat := UInt32.le_iff_toNat_le.1 hle
      omega
    · have hle : 'a'.val ≤ c.val := of_decide_eq_true (Bool.and_eq_true_iff.1 hlower).1
      have : 97 ≤ c.toNat := UInt32.le_iff_toNat_le.1 hle
      omega
  · obtain rfl : c = '_' := of_decide_eq_true hunderscore
    exact absurd hnine (by decide)

theorem marks_no_digit {m : List Char} (hm : m ∈ marks) {c : Char} (hc : c ∈ m) :
    c.isDigit = false ∧ c ≠ '"' := by
  have hall : (marks.all fun m => m.all fun c => !c.isDigit && c != '"') = true := by decide
  simpa using List.all_eq_true.1 (List.all_eq_true.1 hall m hm) c hc

theorem marks_no_word {c : Char} {cs : List Char} (h : c :: cs ∈ marks) :
    isWordStart c = false := by
  have hall : (marks.all fun m => !m.head?.any isWordStart) = true := by decide
  simpa using List.all_eq_true.1 hall _ h

theorem IsNumeral.head {x : List Char} (h : IsNumeral x) :
    ∃ c cs, x = c :: cs ∧ (c = '-' ∨ c.isDigit) := by
  obtain ⟨ds, hne, hds, rfl | rfl⟩ := h
  · obtain ⟨d, ds, rfl⟩ := List.exists_cons_of_ne_nil hne
    exact ⟨d, ds, rfl, .inr (hds d List.mem_cons_self)⟩
  · exact ⟨'-', ds, rfl, .inl rfl⟩

theorem IsNumeral.exists_digit {x : List Char} (h : IsNumeral x) : ∃ d ∈ x, d.isDigit := by
  obtain ⟨ds, hne, hds, hx⟩ := h
  obtain ⟨d, ds, rfl⟩ := List.exists_cons_of_ne_nil hne
  refine ⟨d, ?_, hds d List.mem_cons_self⟩
  rcases hx with rfl | rfl <;> simp

theorem IsNumeral.not_mem_marks {x : List Char} (h : IsNumeral x) : x ∉ marks := by
  intro hmem
  obtain ⟨d, hd, hdigit⟩ := h.exists_digit
  rw [(marks_no_digit hmem hd).1] at hdigit
  cases hdigit

theorem IsNumeral.not_isWord {x : List Char} (h : IsNumeral x) : ¬IsWord x := by
  rintro ⟨c, w, rfl, hc, _⟩
  obtain ⟨_, _, heq, hhead⟩ := h.head
  cases heq
  rcases hhead with rfl | hdigit
  · exact absurd hc (by decide)
  · rw [isDigit_eq_false_of_isWordStart hc] at hdigit
    cases hdigit

theorem IsQuoted.not_mem_marks {x : List Char} (h : IsQuoted x) : x ∉ marks := by
  obtain ⟨body, rfl, _⟩ := h
  intro hmem
  exact (marks_no_digit hmem List.mem_cons_self).2 rfl

theorem IsQuoted.not_isWord {x : List Char} (h : IsQuoted x) : ¬IsWord x := by
  obtain ⟨body, rfl, _⟩ := h
  rintro ⟨c, w, heq, hc, _⟩
  obtain ⟨rfl, _⟩ := List.cons.inj heq
  exact absurd hc (by decide)

theorem IsWord.not_mem_marks {x : List Char} (h : IsWord x) : x ∉ marks := by
  obtain ⟨c, w, rfl, hc, _⟩ := h
  intro hmem
  rw [marks_no_word hmem] at hc
  cases hc

theorem IsWord.not_mem {x : List Char} (h : IsWord x) {d : Char} (hstart : isWordStart d = false)
    (hpart : isWordPart d = false) : d ∉ x := by
  obtain ⟨c, w, rfl, hc, hw⟩ := h
  refine List.not_mem_cons_of_ne_of_not_mem ?_ fun hmem => ?_
  · rintro rfl
    rw [hstart] at hc
    cases hc
  · have hd := hw d hmem
    rw [hpart] at hd
    cases hd

theorem IsWord.quote_not_mem {x : List Char} (h : IsWord x) : '"' ∉ x :=
  h.not_mem (by decide) (by decide)

end Lexeme

/-- A name is not an operator. -/
theorem IsName.ne_symbol {s : String} (h : IsName s) (op : Operator) : s ≠ op.symbol := by
  rintro rfl
  exact h.1.not_mem_marks (by cases op <;> decide)

/-! ## The kind of a lexeme -/

namespace Token.Kind

/-- Only marks and keywords have a fixed spelling. -/
theorem ofSpelling?_eq_none {x : List Char} (hmark : x ∉ marks)
    (hword : ∀ k : Keyword, String.ofList x ≠ k.spelling) :
    ofSpelling? (String.ofList x) = none := by
  cases h : ofSpelling? (String.ofList x) with
  | none => rfl
  | some k =>
    have hs := spelling?_of_ofSpelling? h
    rcases spelling?_cases hs with hmem | ⟨_, w, rfl⟩
    · rw [String.toList_ofList] at hmem
      exact absurd hmem hmark
    · exact absurd (Option.some.inj hs).symm (hword w)

theorem ne_keyword_of_not_isWord {x : List Char} (h : ¬IsWord x) (k : Keyword) :
    String.ofList x ≠ k.spelling := by
  intro heq
  have hk := isWord_keyword k
  rw [← heq, String.toList_ofList] at hk
  exact h hk

/-- The kind of a lexeme without a fixed spelling is read off its first character. -/
theorem ofLexeme?_cons {c : Char} {cs : List Char}
    (hnone : ofSpelling? (String.ofList (c :: cs)) = none) (hquote : c ≠ '"') :
    ofLexeme? (c :: cs) =
      if c = '-' ∨ c.isDigit then (Number.ofLiteral? (c :: cs)).map .number else some .symbol := by
  simp only [ofLexeme?, hnone, Bool.or_eq_true, decide_eq_true_eq]

theorem ofLexeme?_of_isNumeral {x : List Char} (h : IsNumeral x) :
    ofLexeme? x = (Number.ofLiteral? x).map .number := by
  have hnone := ofSpelling?_eq_none h.not_mem_marks (ne_keyword_of_not_isWord h.not_isWord)
  obtain ⟨c, cs, rfl, hc⟩ := h.head
  have hquote : c ≠ '"' := by
    rintro rfl
    exact absurd hc (by decide)
  rw [ofLexeme?_cons hnone hquote, if_pos hc]

theorem ofLexeme?_of_isQuoted {x : List Char} (h : IsQuoted x) : ofLexeme? x = some .string := by
  have hnone := ofSpelling?_eq_none h.not_mem_marks (ne_keyword_of_not_isWord h.not_isWord)
  obtain ⟨body, rfl, _⟩ := h
  unfold ofLexeme?
  rw [hnone]
  rfl

theorem ofLexeme?_of_isName {x : List Char} (h : IsName (.ofList x)) :
    ofLexeme? x = some .symbol := by
  obtain ⟨hword, hkey⟩ := h
  rw [String.toList_ofList] at hword
  have hnone := ofSpelling?_eq_none hword.not_mem_marks hkey
  obtain ⟨c, w, rfl, hc, _⟩ := hword
  have hquote : c ≠ '"' := by
    rintro rfl
    exact absurd hc (by decide)
  have hother : ¬(c = '-' ∨ c.isDigit) := by
    rintro (rfl | hdigit)
    · exact absurd hc (by decide)
    · rw [isDigit_eq_false_of_isWordStart hc] at hdigit
      cases hdigit
  rw [ofLexeme?_cons hnone hquote, if_neg hother]

theorem ofLexeme?_of_spelling? {k : Kind} {x : List Char}
    (h : k.spelling? = some (String.ofList x)) : ofLexeme? x = some k := by
  unfold ofLexeme?
  rw [ofSpelling?_eq_some h]

theorem ofLexeme?_of_isSpelling {k : Kind} {x : List Char} (h : k.IsSpelling x) :
    ofLexeme? x = some k := by
  cases k with
  | symbol => exact ofLexeme?_of_isName h
  | string => exact ofLexeme?_of_isQuoted h
  | number n => rw [ofLexeme?_of_isNumeral h.1, h.2]; rfl
  | operator op => exact ofLexeme?_of_spelling? (congrArg some h.symm)
  | keyword k => exact ofLexeme?_of_spelling? (congrArg some h.symm)
  | openParen => cases h; decide
  | closeParen => cases h; decide

/-- Every mark spells a kind. -/
theorem exists_spelling?_of_mem_marks {x : List Char} (h : x ∈ marks) :
    ∃ k : Kind, k.spelling? = some (String.ofList x) := by
  have hall : ∀ m ∈ marks, (fixed.any fun k => k.spelling? = some (String.ofList m)) = true := by
    decide
  obtain ⟨k, _, hk⟩ := List.any_eq_true.1 (hall x h)
  exact ⟨k, by simpa using hk⟩

theorem isSpelling_of_spelling? {k : Kind} {x : List Char}
    (h : k.spelling? = some (String.ofList x)) : k.IsSpelling x := by
  cases k with
  | number | symbol | string => cases h
  | operator op => exact (Option.some.inj h).symm
  | keyword k => exact (Option.some.inj h).symm
  | openParen | closeParen =>
    have := congrArg String.toList (Option.some.inj h)
    exact String.toList_ofList.symm.trans this.symm

/-- A lexeme of any shape but a numeral spells some kind. -/
theorem exists_isSpelling {x : List Char} (h : IsWord x ∨ IsQuoted x ∨ x ∈ marks) :
    ∃ k : Kind, k.IsSpelling x := by
  rcases h with h | h | h
  · by_cases hkey : ∃ w : Keyword, String.ofList x = w.spelling
    · obtain ⟨w, hw⟩ := hkey
      exact ⟨.keyword w, hw⟩
    · have hname : IsName (.ofList x) :=
        ⟨by rwa [String.toList_ofList], fun w hw => hkey ⟨w, hw⟩⟩
      exact ⟨.symbol, hname⟩
  · exact ⟨.string, h⟩
  · obtain ⟨k, hk⟩ := exists_spelling?_of_mem_marks h
    exact ⟨k, isSpelling_of_spelling? hk⟩

/-- A lexeme spells the kind that it is given. -/
theorem isSpelling_of_ofLexeme? {cs x rest : List Char} {k : Kind}
    (hsplit : split? cs = some (x, rest)) (hk : ofLexeme? x = some k) : k.IsSpelling x := by
  rcases shape_of_split? hsplit with h | h
  · rw [ofLexeme?_of_isNumeral h] at hk
    obtain ⟨n, hn, rfl⟩ := Option.map_eq_some_iff.1 hk
    exact ⟨h, hn⟩
  · obtain ⟨k', hk'⟩ := exists_isSpelling h
    rw [ofLexeme?_of_isSpelling hk'] at hk
    cases hk
    exact hk'

/-- The only lexemes without a kind are numerals, those that do not fit. -/
theorem isNumeral_of_ofLexeme?_eq_none {cs x rest : List Char}
    (hsplit : split? cs = some (x, rest)) (hk : ofLexeme? x = none) : IsNumeral x := by
  rcases shape_of_split? hsplit with h | h
  · exact h
  · obtain ⟨k, hk'⟩ := exists_isSpelling h
    rw [ofLexeme?_of_isSpelling hk'] at hk
    cases hk

end Token.Kind

end PrefixLisp
