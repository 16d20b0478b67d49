import Mathlib.Data.List.TakeWhile
import PrefixLisp.Proofs.Token.Shape

/-
  Where a lexeme ends.

  A delimiter is a character that no lexeme takes in behind its first character, strings apart.
  What the recognisers see in a text does not change when a delimiter and anything else is put
  behind it (`split?_append_of_delimited`), unless the text is an open quote, which runs on until
  the next quote.

  So a spelling of a token, standing before a delimiter, is the lexeme that is split off there
  (`split?_of_isSpelling`).
-/

namespace PrefixLisp.Lexeme

/-- No lexeme but a quoted text has this character behind its first one. -/
def Delimits (c : Char) : Prop :=
  isWordPart c = false ∧ c ≠ '=' ∧ c ≠ '"'

instance : DecidablePred Delimits :=
  fun _ => inferInstanceAs (Decidable (_ ∧ _))

/-- The text is empty or begins with a delimiter. -/
def Delimited (rest : List Char) : Prop :=
  ∀ c ∈ rest.head?, Delimits c

theorem delimited_nil : Delimited [] := by
  simp [Delimited]

theorem delimited_cons {c : Char} {rest : List Char} : Delimited (c :: rest) ↔ Delimits c := by
  simp [Delimited]

theorem isDigit_eq_false_of_delimits {c : Char} (h : Delimits c) : c.isDigit = false := by
  have := h.1
  simp only [isWordPart, Char.isAlphanum, Bool.or_eq_false_iff] at this
  exact this.1.2

/-- What was split off stays, what is left goes on. -/
def extend (rest : List Char) (p : List Char × List Char) : List Char × List Char :=
  (p.1, p.2 ++ rest)

section

variable {p : Char → Bool} {rest : List Char}

theorem takeWhile_append_of_stop (x : List Char) (h : ∀ c ∈ rest.head?, p c = false) :
    (x ++ rest).takeWhile p = x.takeWhile p := by
  have hstop : rest.takeWhile p = [] := by
    cases rest with
    | nil => rfl
    | cons c cs => rw [List.takeWhile_cons_of_neg (by simp [h c rfl])]
  rw [List.takeWhile_append, hstop]
  split
  · rename_i hlen
    rw [List.append_nil, (List.takeWhile_prefix p).eq_of_length hlen]
  · rfl

theorem dropWhile_append_of_stop (x : List Char) (h : ∀ c ∈ rest.head?, p c = false) :
    (x ++ rest).dropWhile p = x.dropWhile p ++ rest := by
  have hstop : rest.dropWhile p = rest := by
    cases rest with
    | nil => rfl
    | cons c cs => rw [List.dropWhile_cons_of_neg (by simp [h c rfl])]
  rw [List.dropWhile_append, hstop]
  split
  · rename_i hempty
    rw [List.isEmpty_iff.1 hempty, List.nil_append]
  · rfl

end

variable {rest : List Char}

theorem digits?_append_of_delimited (x : List Char) (h : Delimited rest) :
    digits? (x ++ rest) = (digits? x).map (extend rest) := by
  have hstop : ∀ c ∈ rest.head?, c.isDigit = false :=
    fun c hc => isDigit_eq_false_of_delimits (h c hc)
  unfold digits?
  rw [takeWhile_append_of_stop x hstop, dropWhile_append_of_stop x hstop]
  dsimp only
  split <;> rfl

theorem number?_of_ne {c : Char} (h : c ≠ '-') (cs : List Char) :
    number? (c :: cs) = digits? (c :: cs) := by
  unfold number?
  split
  · rename_i heq
    exact absurd (List.cons.inj heq).1 h
  · rfl

theorem number?_append_of_delimited {x : List Char} (hx : x ≠ []) (h : Delimited rest) :
    number? (x ++ rest) = (number? x).map (extend rest) := by
  obtain ⟨c, cs, rfl⟩ := List.exists_cons_of_ne_nil hx
  by_cases hc : c = '-'
  · subst hc
    rw [List.cons_append]
    simp only [number?]
    rw [digits?_append_of_delimited cs h, Option.map_map, Option.map_map]
    rfl
  · rw [List.cons_append, number?_of_ne hc, number?_of_ne hc]
    exact digits?_append_of_delimited (c :: cs) h

theorem word?_append_of_delimited {x : List Char} (hx : x ≠ []) (h : Delimited rest) :
    word? (x ++ rest) = (word? x).map (extend rest) := by
  obtain ⟨c, cs, rfl⟩ := List.exists_cons_of_ne_nil hx
  have hstop : ∀ c ∈ rest.head?, isWordPart c = false := fun c hc => (h c hc).1
  rw [List.cons_append]
  simp only [word?]
  rw [takeWhile_append_of_stop cs hstop, dropWhile_append_of_stop cs hstop]
  split <;> rfl

theorem string?_of_ne {c : Char} (h : c ≠ '"') (cs : List Char) : string? (c :: cs) = none := by
  unfold string?
  split
  · rename_i heq
    exact absurd (List.cons.inj heq).1 h
  · rfl

/-- A quoted text may hold anything, so only one that is closed already stays as it is. -/
theorem string?_append_of_isSome {x : List Char} (h : (string? x).isSome) (rest : List Char) :
    string? (x ++ rest) = (string? x).map (extend rest) := by
  obtain ⟨⟨t, r⟩, ht⟩ := Option.isSome_iff_exists.1 h
  obtain ⟨body, rfl, hbody⟩ := isQuoted_of_string? ht
  obtain ⟨rfl, _⟩ := string?_append ht
  have hopen : ∀ c ∈ body, (c ≠ '"') = true := by
    intro c hc
    have : c ≠ '"' := fun heq => hbody (heq ▸ hc)
    simpa using this
  have hclosed (y : List Char) :
      string? ('"' :: body ++ ['"'] ++ y) = some ('"' :: body ++ ['"'], y) := by
    rw [List.append_assoc, List.cons_append, List.singleton_append]
    simp only [string?]
    rw [List.dropWhile_append_of_pos (by simpa using hopen),
      List.takeWhile_append_of_pos (by simpa using hopen)]
    simp
  rw [List.append_assoc, hclosed, hclosed]
  rfl

theorem punctuation?_cons_cons (c d : Char) (cs : List Char) :
    punctuation? (c :: d :: cs) =
      if d = '=' ∧ c ∈ ['>', '<', '=', '!'] then some ([c, d], cs)
      else if c ∈ ['(', ')', '+', '-', '*', '/', '<', '>'] then some ([c], d :: cs)
      else none := by
  unfold punctuation?
  split <;> grind

theorem punctuation?_append_of_delimited {x : List Char} (hx : x ≠ []) (h : Delimited rest) :
    punctuation? (x ++ rest) = (punctuation? x).map (extend rest) := by
  obtain ⟨c, cs, rfl⟩ := List.exists_cons_of_ne_nil hx
  rcases cs with _ | ⟨d, cs⟩
  · rcases rest with _ | ⟨d, rest⟩
    · rw [List.append_nil]
      cases punctuation? [c] <;> simp [extend]
    · have hd := (delimited_cons.1 h).2.1
      rw [List.singleton_append, punctuation?_cons_cons, if_neg (by simp [hd])]
      simp only [punctuation?]
      split <;> rfl
  · rw [List.cons_append, List.cons_append, punctuation?_cons_cons, punctuation?_cons_cons]
    split
    · rfl
    · split <;> rfl

/-- A quote begins no lexeme but a quoted text. -/
theorem split?_quote (cs : List Char) : split? ('"' :: cs) = string? ('"' :: cs) := by
  have hnumber : number? ('"' :: cs) = none := by
    rw [number?_of_ne (by decide)]
    simp [digits?]
  have hword : word? ('"' :: cs) = none := by
    have hstart : isWordStart '"' = false := by decide
    simp [word?, hstart]
  have hmark : punctuation? ('"' :: cs) = none := by
    rcases cs with _ | ⟨d, cs⟩
    · rfl
    · rw [punctuation?_cons_cons]
      simp
  unfold split?
  rw [hnumber, hword, hmark]
  cases string? ('"' :: cs) <;> rfl

/-- What is split off a text does not change with what stands behind a delimiter, unless the text
is an open quote. -/
theorem split?_append_of_delimited {x : List Char} (hx : x ≠ []) (h : Delimited rest)
    (hquote : split? x = none → x.head? ≠ some '"') :
    split? (x ++ rest) = (split? x).map (extend rest) := by
  by_cases hhead : x.head? = some '"'
  · have hsome : (split? x).isSome := by
      rw [Option.isSome_iff_ne_none]
      exact fun hnone => hquote hnone hhead
    obtain ⟨cs, rfl⟩ : ∃ cs, x = '"' :: cs := List.head?_eq_some_iff.1 hhead
    rw [split?_quote] at hsome ⊢
    rw [List.cons_append, split?_quote]
    exact string?_append_of_isSome hsome rest
  · obtain ⟨c, cs, rfl⟩ := List.exists_cons_of_ne_nil hx
    have hne : c ≠ '"' := fun heq => hhead (congrArg some heq)
    have hstring (y : List Char) : string? (c :: y) = none := string?_of_ne hne y
    unfold split?
    rw [number?_append_of_delimited hx h, word?_append_of_delimited hx h,
      punctuation?_append_of_delimited hx h, List.cons_append, hstring, hstring]
    cases number? (c :: cs) <;> cases word? (c :: cs) <;> rfl

/-! ## Spellings are lexemes -/

theorem digits?_self {ds : List Char} (hne : ds ≠ []) (h : ∀ d ∈ ds, d.isDigit) :
    digits? ds = some (ds, []) := by
  unfold digits?
  rw [List.takeWhile_eq_self_iff.2 h, List.dropWhile_eq_nil_iff.2 h]
  simp [hne]

theorem split?_of_isNumeral {x : List Char} (h : IsNumeral x) : split? x = some (x, []) := by
  obtain ⟨ds, hne, hds, hx⟩ := h
  have hnumber : number? x = some (x, []) := by
    rcases hx with rfl | rfl
    · obtain ⟨d, ds, rfl⟩ := List.exists_cons_of_ne_nil hne
      have hd : d ≠ '-' := by
        rintro rfl
        exact absurd (hds '-' List.mem_cons_self) (by decide)
      rw [number?_of_ne hd, digits?_self hne hds]
    · simp only [number?]
      rw [digits?_self hne hds]
      rfl
  unfold split?
  rw [hnumber]
  rfl

theorem split?_of_isWord {x : List Char} (h : IsWord x) : split? x = some (x, []) := by
  obtain ⟨c, w, rfl, hc, hw⟩ := h
  have hminus : c ≠ '-' := by
    rintro rfl
    exact absurd hc (by decide)
  have hnumber : number? (c :: w) = none := by
    rw [number?_of_ne hminus]
    simp [digits?, isDigit_eq_false_of_isWordStart hc]
  have hword : word? (c :: w) = some (c :: w, []) := by
    simp only [word?, hc, if_true]
    rw [List.takeWhile_eq_self_iff.2 hw, List.dropWhile_eq_nil_iff.2 hw]
  unfold split?
  rw [hnumber, hword]
  rfl

theorem split?_of_isQuoted {x : List Char} (h : IsQuoted x) : split? x = some (x, []) := by
  obtain ⟨body, rfl, hbody⟩ := h
  have hopen : ∀ c ∈ body, (c ≠ '"') = true := by
    intro c hc
    have : c ≠ '"' := fun heq => hbody (heq ▸ hc)
    simpa using this
  rw [List.cons_append, split?_quote]
  simp only [string?]
  rw [List.dropWhile_append_of_pos (by simpa using hopen),
    List.takeWhile_append_of_pos (by simpa using hopen)]
  simp

theorem split?_of_mem_marks {x : List Char} (h : x ∈ marks) : split? x = some (x, []) := by
  have hall : ∀ m ∈ marks, split? m = some (m, []) := by decide
  exact hall x h

theorem split?_of_isSpelling {k : Token.Kind} {x : List Char} (h : k.IsSpelling x) :
    split? x = some (x, []) := by
  have hfixed {s : String} (hs : k.spelling? = some s) (hx : x = s.toList) :
      split? x = some (x, []) := by
    rcases Token.Kind.spelling?_cases hs with hmark | ⟨hword, _⟩
    · exact split?_of_mem_marks (hx ▸ hmark)
    · exact split?_of_isWord (hx ▸ hword)
  cases k with
  | symbol =>
    have := h.1
    rw [String.toList_ofList] at this
    exact split?_of_isWord this
  | string => exact split?_of_isQuoted h
  | number n => exact split?_of_isNumeral h.1
  | operator op => exact hfixed rfl (by rw [← h, String.toList_ofList])
  | keyword k => exact hfixed rfl (by rw [← h, String.toList_ofList])
  | openParen => exact hfixed rfl h
  | closeParen => exact hfixed rfl h

/-- A spelling before a delimiter is split off as it is. -/
theorem split?_append_of_isSpelling {k : Token.Kind} {x : List Char} (h : k.IsSpelling x)
    (hrest : Delimited rest) : split? (x ++ rest) = some (x, rest) := by
  have hx := split?_of_isSpelling h
  rw [split?_append_of_delimited (split?_append hx).2 hrest (by rw [hx]; nofun), hx]
  rfl

/-- Parentheses need no delimiter behind them. -/
theorem split?_paren {c : Char} (h : c = '(' ∨ c = ')') (rest : List Char) :
    split? (c :: rest) = some ([c], rest) := by
  have hnumber : number? (c :: rest) = none := by
    rw [number?_of_ne (by rcases h with rfl | rfl <;> decide)]
    rcases h with rfl | rfl <;> simp [digits?]
  have hword : word? (c :: rest) = none := by
    have hstart : isWordStart c = false := by rcases h with rfl | rfl <;> decide
    simp [word?, hstart]
  have hstring : string? (c :: rest) = none :=
    string?_of_ne (by rcases h with rfl | rfl <;> decide) rest
  have hmark : punctuation? (c :: rest) = some ([c], rest) := by
    rcases h with rfl | rfl <;> simp [punctuation?]
  unfold split?
  rw [hnumber, hword, hstring, hmark]
  rfl

end PrefixLisp.Lexeme
