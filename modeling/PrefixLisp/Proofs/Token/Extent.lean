import Mathlib.Data.List.Basic
import PrefixLisp.Proofs.Token.Boundary

/-
  How far a lexeme reaches.

  `EndsBefore next x` says that `x` has the shape of a lexeme and that the character `next` behind
  it, if there is one, is not part of it. This decides what is split off a text
  (`split?_append_eq_some_iff`): of all that stands behind a lexeme, only the first character
  matters, and behind a quoted text not even that.
-/

namespace PrefixLisp.Lexeme

/-- `x` is a lexeme that does not go on with the next character. -/
inductive EndsBefore (next : Option Char) (x : List Char) : Prop where
  | numeral (h : IsNumeral x) (hnext : ∀ c ∈ next, c.isDigit = false)
  | word (h : IsWord x) (hnext : ∀ c ∈ next, isWordPart c = false)
  | quoted (h : IsQuoted x)
  | mark (h : x ∈ marks) (hlonger : ∀ c ∈ next, x ++ [c] ∉ marks)
      (hminus : x = ['-'] → ∀ c ∈ next, c.isDigit = false)

/-- A blank ends every lexeme. -/
theorem EndsBefore.of_space {next : Option Char} {x : List Char} (h : EndsBefore next x) :
    EndsBefore (some ' ') x := by
  have hspace {P : Char → Prop} (hP : P ' ') : ∀ c ∈ some ' ', P c := by
    rintro c ⟨⟩
    exact hP
  cases h with
  | numeral h => exact .numeral h (hspace (by decide))
  | word h => exact .word h (hspace (by decide))
  | quoted h => exact .quoted h
  | mark h =>
    have hall : ∀ m ∈ marks, m ++ [' '] ∉ marks := by decide
    exact .mark h (hspace (hall x h)) fun _ => hspace (by decide)

/-! ## What is split off ends there -/

theorem head?_dropWhile_isDigit {cs : List Char} :
    ∀ c ∈ (cs.dropWhile Char.isDigit).head?, c.isDigit = false := by
  have h := List.head?_dropWhile_not Char.isDigit cs
  intro c hc
  rw [hc] at h
  simpa using h

theorem endsBefore_of_digits? {cs x rest : List Char} (h : digits? cs = some (x, rest)) :
    ∀ c ∈ rest.head?, c.isDigit = false := by
  unfold digits? at h
  simp only at h
  split at h <;> cases h
  exact head?_dropWhile_isDigit

theorem endsBefore_of_number? {cs x rest : List Char} (h : number? cs = some (x, rest)) :
    EndsBefore rest.head? x := by
  refine .numeral (isNumeral_of_number? h) ?_
  unfold number? at h
  split at h
  · obtain ⟨⟨ds, r⟩, hd, he⟩ := Option.map_eq_some_iff.1 h
    cases he
    exact endsBefore_of_digits? hd
  · exact endsBefore_of_digits? h

theorem endsBefore_of_word? {cs x rest : List Char} (h : word? cs = some (x, rest)) :
    EndsBefore rest.head? x := by
  refine .word (isWord_of_word? h) ?_
  unfold word? at h
  split at h
  · cases h
  · split at h <;> cases h
    rename_i cs _
    have hstop := List.head?_dropWhile_not isWordPart cs
    intro c hc
    rw [hc] at hstop
    simpa using hstop

theorem mem_marks_pair {c d : Char} : [c, d] ∈ marks ↔ d = '=' ∧ c ∈ ['>', '<', '=', '!'] := by
  simp only [marks, List.mem_cons, List.not_mem_nil, or_false, List.cons.injEq, and_true,
    reduceCtorEq, and_false, false_or]
  grind

theorem mem_marks_singleton {c : Char} :
    [c] ∈ marks ↔ c ∈ ['(', ')', '+', '-', '*', '/', '<', '>'] := by
  simp only [marks, List.mem_cons, List.not_mem_nil, or_false, List.cons.injEq, and_true,
    reduceCtorEq, and_false]
  grind

theorem length_marks {x : List Char} (h : x ∈ marks) : x.length = 1 ∨ x.length = 2 := by
  have hall : ∀ m ∈ marks, m.length = 1 ∨ m.length = 2 := by decide
  exact hall x h

/-- No mark that is split off is the beginning of a longer one. -/
theorem longer_not_mem_marks {x rest : List Char}
    (h : punctuation? (x ++ rest) = some (x, rest)) : ∀ c ∈ rest.head?, x ++ [c] ∉ marks := by
  intro c hc hmem
  obtain ⟨rest, rfl⟩ := List.head?_eq_some_iff.1 hc
  rcases length_marks (mem_marks_of_punctuation? h) with hlen | hlen
  · obtain ⟨a, rfl⟩ := List.length_eq_one_iff.1 hlen
    rw [List.singleton_append, punctuation?_cons_cons, if_pos (mem_marks_pair.1 hmem)] at h
    cases h
  · have := length_marks hmem
    rw [List.length_append, List.length_singleton] at this
    omega

theorem isSome_digits? {c : Char} (hc : c.isDigit) (cs : List Char) :
    (digits? (c :: cs)).isSome := by
  simp [digits?, hc]

theorem split?_of_number? {cs : List Char} {p : List Char × List Char} (h : number? cs = some p) :
    split? cs = some p := by
  unfold split?
  rw [h]
  rfl

theorem endsBefore_of_split? {x rest : List Char} (h : split? (x ++ rest) = some (x, rest)) :
    EndsBefore rest.head? x := by
  rcases split?_eq_some_cases h with hnumber | hword | hstring | hmark
  · exact endsBefore_of_number? hnumber
  · exact endsBefore_of_word? hword
  · exact .quoted (isQuoted_of_string? hstring)
  · have hx := mem_marks_of_punctuation? hmark
    refine .mark hx (longer_not_mem_marks hmark) ?_
    rintro rfl c hc
    obtain ⟨rest, rfl⟩ := List.head?_eq_some_iff.1 hc
    rw [Bool.eq_false_iff]
    intro hdigit
    -- A minus sign before a digit would have been the beginning of a numeral.
    obtain ⟨⟨ds, r⟩, hds⟩ := Option.isSome_iff_exists.1 (isSome_digits? hdigit rest)
    have hnumber : number? ('-' :: c :: rest) = some ('-' :: ds, r) := by
      rw [number?, hds]
      rfl
    cases (split?_of_number? hnumber).symm.trans h
    exact (isNumeral_of_number? hnumber).not_mem_marks hx

/-! ## What ends there is split off -/

section

variable {x rest : List Char}

theorem digits?_append_of_isDigit {ds : List Char} (hne : ds ≠ []) (hds : ∀ d ∈ ds, d.isDigit)
    (hnext : ∀ c ∈ rest.head?, c.isDigit = false) : digits? (ds ++ rest) = some (ds, rest) := by
  unfold digits?
  rw [takeWhile_append_of_stop ds hnext, dropWhile_append_of_stop ds hnext,
    List.takeWhile_eq_self_iff.2 hds, List.dropWhile_eq_nil_iff.2 hds]
  simp [hne]

theorem number?_append_of_isNumeral (h : IsNumeral x)
    (hnext : ∀ c ∈ rest.head?, c.isDigit = false) : number? (x ++ rest) = some (x, rest) := by
  obtain ⟨ds, hne, hds, rfl | rfl⟩ := h
  · obtain ⟨d, ds, rfl⟩ := List.exists_cons_of_ne_nil hne
    have hd : d ≠ '-' := by
      rintro rfl
      exact absurd (hds '-' List.mem_cons_self) (by decide)
    rw [List.cons_append, number?_of_ne hd]
    exact digits?_append_of_isDigit hne hds hnext
  · rw [List.cons_append, number?, digits?_append_of_isDigit hne hds hnext]
    rfl

theorem digits?_eq_none (hnext : ∀ c ∈ rest.head?, c.isDigit = false) : digits? rest = none := by
  cases rest with
  | nil => rfl
  | cons c cs => simp [digits?, hnext c rfl]

/-- No numeral begins with a character that is neither a minus sign nor a digit. -/
theorem number?_cons_eq_none {c : Char} (hminus : c ≠ '-') (hdigit : c.isDigit = false)
    (cs : List Char) : number? (c :: cs) = none := by
  rw [number?_of_ne hminus]
  refine digits?_eq_none ?_
  rintro _ ⟨⟩
  exact hdigit

theorem split?_append_of_isWord (h : IsWord x) (hnext : ∀ c ∈ rest.head?, isWordPart c = false) :
    split? (x ++ rest) = some (x, rest) := by
  obtain ⟨c, w, rfl, hc, hw⟩ := h
  have hminus : c ≠ '-' := by
    rintro rfl
    exact absurd hc (by decide)
  have hword : word? (c :: w ++ rest) = some (c :: w, rest) := by
    rw [List.cons_append, word?, if_pos hc, takeWhile_append_of_stop w hnext,
      dropWhile_append_of_stop w hnext, List.takeWhile_eq_self_iff.2 hw,
      List.dropWhile_eq_nil_iff.2 hw]
    rfl
  unfold split?
  rw [hword, List.cons_append,
    number?_cons_eq_none hminus (isDigit_eq_false_of_isWordStart hc)]
  rfl

theorem split?_append_of_isQuoted (h : IsQuoted x) (rest : List Char) :
    split? (x ++ rest) = some (x, rest) := by
  have hx := split?_of_isQuoted h
  obtain ⟨body, rfl, _⟩ := h
  rw [List.cons_append, split?_quote] at hx
  rw [List.cons_append, List.cons_append, split?_quote, ← List.cons_append,
    string?_append_of_isSome (by rw [hx]; rfl), hx]
  rfl

/-- A mark that does not go on is split off by its first character, or by its first two. -/
theorem punctuation?_append_of_mem_marks (h : x ∈ marks)
    (hlonger : ∀ c ∈ rest.head?, x ++ [c] ∉ marks) : punctuation? (x ++ rest) = some (x, rest) := by
  have hself : ∀ m ∈ marks, punctuation? m = some (m, []) := by decide
  cases rest with
  | nil =>
    rw [List.append_nil]
    exact hself x h
  | cons d rest =>
    rcases length_marks h with hlen | hlen
    · obtain ⟨a, rfl⟩ := List.length_eq_one_iff.1 hlen
      rw [List.singleton_append, punctuation?_cons_cons,
        if_neg fun hpair => hlonger d rfl (mem_marks_pair.2 hpair),
        if_pos (mem_marks_singleton.1 h)]
    · obtain ⟨a, b, rfl⟩ := List.length_eq_two.1 hlen
      rw [List.cons_append, List.singleton_append, punctuation?_cons_cons,
        if_pos (mem_marks_pair.1 h)]

theorem split?_append_of_mem_marks (h : x ∈ marks) (hlonger : ∀ c ∈ rest.head?, x ++ [c] ∉ marks)
    (hminus : x = ['-'] → ∀ c ∈ rest.head?, c.isDigit = false) :
    split? (x ++ rest) = some (x, rest) := by
  have hmark := punctuation?_append_of_mem_marks h hlonger
  have hne : x ≠ [] := by
    rintro rfl
    exact absurd h (by decide)
  obtain ⟨c, cs, rfl⟩ := List.exists_cons_of_ne_nil hne
  obtain ⟨hdigit, hquote⟩ := marks_no_digit h List.mem_cons_self
  have hnumber : number? (c :: cs ++ rest) = none := by
    by_cases hc : c = '-'
    · subst hc
      have honly : ∀ m ∈ marks, m.head? = some '-' → m = ['-'] := by decide
      obtain ⟨_, rfl⟩ := List.cons.inj (honly _ h rfl)
      rw [List.singleton_append, number?, digits?_eq_none (hminus rfl)]
      rfl
    · exact number?_cons_eq_none hc hdigit _
  unfold split?
  rw [hnumber, hmark, List.cons_append, string?_of_ne hquote, word?,
    if_neg (by simp [marks_no_word h])]
  rfl

end

/-- What is split off a text is what ends before the character behind it. -/
theorem split?_append_eq_some_iff {x rest : List Char} :
    split? (x ++ rest) = some (x, rest) ↔ EndsBefore rest.head? x := by
  refine ⟨endsBefore_of_split?, fun h => ?_⟩
  cases h with
  | numeral h hnext => exact split?_of_number? (number?_append_of_isNumeral h hnext)
  | word h hnext => exact split?_append_of_isWord h hnext
  | quoted h => exact split?_append_of_isQuoted h rest
  | mark h hlonger hminus => exact split?_append_of_mem_marks h hlonger hminus

end PrefixLisp.Lexeme
