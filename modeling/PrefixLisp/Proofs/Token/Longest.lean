import Mathlib.Data.Nat.Digits.Defs
import Mathlib.Data.Nat.Find
import PrefixLisp.Proofs.Token.Extent
import PrefixLisp.Proofs.Token.Pieces

/-
  The lexer takes the longest lexeme.

  The recognisers are tried in a fixed order, and none of them looks at what the others could take.
  Nevertheless what is split off a text is the longest beginning of it that is a lexeme of any
  shape, and nothing is split off only if no beginning of it is one (`split?_eq_some_iff_longest`,
  `split?_eq_none_iff`). The reason is that the longest lexeme cannot be made longer by the
  character behind it, and this already decides what is split off (`LongestLexeme.endsBefore`).

  The item says what the lexeme is (`Describes`). A numeral is worth its digits in decimal
  notation, of whatever number they are (`literalValue_eq`), and it is a token if this is in range.
  `next_longest` puts both together for a lexer at any place.
-/

namespace PrefixLisp

namespace Lexeme

/-- A text of one of the four shapes. -/
def IsLexeme (x : List Char) : Prop :=
  IsNumeral x ∨ IsWord x ∨ IsQuoted x ∨ x ∈ marks

/-- `x` is the longest lexeme that the text begins with. -/
structure LongestLexeme (x text : List Char) : Prop where
  isLexeme : IsLexeme x
  starts : x <+: text
  longest : ∀ other, IsLexeme other → other <+: text → other.length ≤ x.length

/-! ## The longest lexeme is split off -/

section

variable {x : List Char} {c : Char}

theorem IsNumeral.concat (h : IsNumeral x) (hc : c.isDigit) : IsNumeral (x ++ [c]) := by
  obtain ⟨ds, hne, hds, hx⟩ := h
  refine ⟨ds ++ [c], List.append_ne_nil_of_left_ne_nil hne [c], ?_, ?_⟩
  · intro d hd
    rcases List.mem_append.1 hd with hd | hd
    · exact hds d hd
    · rw [List.mem_singleton.1 hd]
      exact hc
  · rcases hx with rfl | rfl
    · exact .inl rfl
    · exact .inr rfl

theorem IsWord.concat (h : IsWord x) (hc : isWordPart c) : IsWord (x ++ [c]) := by
  obtain ⟨a, w, rfl, ha, hw⟩ := h
  refine ⟨a, w ++ [c], rfl, ha, ?_⟩
  intro d hd
  rcases List.mem_append.1 hd with hd | hd
  · exact hw d hd
  · rw [List.mem_singleton.1 hd]
    exact hc

theorem isNumeral_minus (hc : c.isDigit) : IsNumeral ['-', c] :=
  ⟨[c], List.cons_ne_nil c [], List.forall_mem_singleton.2 hc, .inr rfl⟩

end

variable {x y rest cs : List Char}

/-- With the next character, the longest lexeme is none. -/
theorem LongestLexeme.not_isLexeme_concat (h : LongestLexeme x (x ++ rest)) :
    ∀ c ∈ rest.head?, ¬IsLexeme (x ++ [c]) := by
  intro c hc hlexeme
  obtain ⟨more, rfl⟩ := List.head?_eq_some_iff.1 hc
  have hstarts : x ++ [c] <+: x ++ c :: more := ⟨more, List.append_cons x c more |>.symm⟩
  have hle := h.longest _ hlexeme hstarts
  rw [List.length_append, List.length_singleton] at hle
  omega

/-- The longest lexeme does not go on with the next character. -/
theorem LongestLexeme.endsBefore (h : LongestLexeme x (x ++ rest)) : EndsBefore rest.head? x := by
  have hnot := h.not_isLexeme_concat
  rcases h.isLexeme with hx | hx | hx | hx
  · refine .numeral hx fun c hc => ?_
    rw [Bool.eq_false_iff]
    intro hdigit
    exact hnot c hc (.inl (hx.concat hdigit))
  · refine .word hx fun c hc => ?_
    rw [Bool.eq_false_iff]
    intro hpart
    exact hnot c hc (.inr (.inl (hx.concat hpart)))
  · exact .quoted hx
  · refine .mark hx (fun c hc hmark => hnot c hc (.inr (.inr (.inr hmark)))) ?_
    -- A minus sign goes on with a digit, as a numeral.
    intro hminus c hc
    subst hminus
    rw [Bool.eq_false_iff]
    intro hdigit
    exact hnot c hc (.inl (isNumeral_minus hdigit))

theorem LongestLexeme.split? (h : LongestLexeme x (x ++ rest)) :
    split? (x ++ rest) = some (x, rest) :=
  split?_append_eq_some_iff.2 h.endsBefore

/-- If any beginning of a text is a lexeme, there is a longest one. -/
theorem exists_longestLexeme (h : ∃ y, IsLexeme y ∧ y <+: cs) : ∃ x, LongestLexeme x cs := by
  classical
  obtain ⟨y, hy, hstarts⟩ := h
  have htake {z : List Char} (hz : IsLexeme z) (hstarts : z <+: cs) :
      IsLexeme (cs.take z.length) := by
    rwa [← List.prefix_iff_eq_take.1 hstarts]
  let n := Nat.findGreatest (fun n => IsLexeme (cs.take n)) cs.length
  have hn : n ≤ cs.length := Nat.findGreatest_le cs.length
  refine ⟨cs.take n, ?_, List.take_prefix n cs, ?_⟩
  · exact Nat.findGreatest_spec (P := fun n => IsLexeme (cs.take n)) hstarts.length_le
      (htake hy hstarts)
  · intro z hz hstarts
    rw [List.length_take, Nat.min_eq_left hn]
    exact Nat.le_findGreatest hstarts.length_le (htake hz hstarts)

/-- What is split off a text is the longest lexeme that it begins with. -/
theorem split?_eq_some_iff_longest :
    split? cs = some (x, rest) ↔ cs = x ++ rest ∧ LongestLexeme x cs := by
  constructor
  · intro h
    obtain ⟨rfl, _⟩ := split?_append h
    obtain ⟨y, hy⟩ := exists_longestLexeme ⟨x, shape_of_split? h, List.prefix_append x rest⟩
    obtain ⟨more, heq⟩ := hy.starts
    have hsplit := (heq ▸ hy).split?
    rw [heq, h] at hsplit
    cases hsplit
    exact ⟨rfl, hy⟩
  · intro ⟨heq, hx⟩
    subst heq
    exact hx.split?

/-- Nothing is split off a text just if it begins with no lexeme. -/
theorem split?_eq_none_iff : split? cs = none ↔ ∀ x, x <+: cs → ¬IsLexeme x := by
  constructor
  · intro h x hstarts hx
    obtain ⟨y, hy⟩ := exists_longestLexeme ⟨x, hx, hstarts⟩
    obtain ⟨more, rfl⟩ := hy.starts
    rw [hy.split?] at h
    cases h
  · intro h
    cases hsplit : split? cs with
    | none => rfl
    | some p =>
      obtain ⟨rfl, _⟩ := split?_append hsplit
      exact absurd (shape_of_split? hsplit) (h p.1 (List.prefix_append p.1 p.2))

end Lexeme

open Lexeme

/-! ## Decimal notation -/

namespace Number

def digitValue (d : Char) : Nat :=
  d.toNat - '0'.toNat

/-- The value of a numeral: each digit counts ten times what it counts one place further right. -/
def decimalValue : List Char → Int
  | '-' :: ds => -Nat.ofDigits 10 (ds.reverse.map digitValue)
  | ds => Nat.ofDigits 10 (ds.reverse.map digitValue)

/-- The digits taken in from the left, or added up by their places. -/
theorem ofDigitChars_eq (ds : List Char) :
    (Nat.ofDigitChars 10 ds 0 : Int) = Nat.ofDigits 10 (ds.reverse.map digitValue) := by
  have hnat : Nat.ofDigitChars 10 ds 0 = Nat.ofDigits 10 (ds.reverse.map digitValue) := by
    rw [Nat.ofDigits_eq_foldr, List.map_reverse, List.foldr_reverse, List.foldl_map]
    unfold Nat.ofDigitChars
    congr 1
    funext n d
    exact Nat.add_comm _ _
  rw [hnat, Nat.coe_ofDigits]
  rfl

theorem literalValue_eq (x : List Char) : literalValue x = decimalValue x := by
  unfold literalValue
  split
  · exact congrArg Neg.neg (ofDigitChars_eq _)
  · rename_i hunsigned
    unfold decimalValue
    split
    · exact absurd rfl (hunsigned _)
    · exact ofDigitChars_eq x

end Number

/-! ## Items -/

/-- What an item has to say about a lexeme `x` that begins at `pos`. -/
structure LexItem.Describes (item : LexItem) (x : List Char) (pos : Position) : Prop where
  fixed : ∀ k : Token.Kind, k.spelling? = some (.ofList x) → item = .ok ⟨k, .ofList x, pos⟩
  string : IsQuoted x → item = .ok ⟨.string, .ofList x, pos⟩
  symbol : IsWord x → (∀ k : Keyword, String.ofList x ≠ k.spelling) →
    item = .ok ⟨.symbol, .ofList x, pos⟩
  number : IsNumeral x → ∀ n : Number, n.val = Number.decimalValue x →
    item = .ok ⟨.number n, .ofList x, pos⟩
  outOfRange : item = .error ⟨.numberOutOfRange (.ofList x), pos⟩ ↔
    IsNumeral x ∧ ¬Number.InRange (Number.decimalValue x)

namespace Lexer

theorem itemOfLexeme_of_isNumeral {x : List Char} (h : IsNumeral x) (pos : Position) :
    itemOfLexeme x pos =
      match Number.ofInt? (Number.decimalValue x) with
      | some n => .ok ⟨.number n, .ofList x, pos⟩
      | none => .error ⟨.numberOutOfRange (.ofList x), pos⟩ := by
  unfold itemOfLexeme
  rw [Token.Kind.ofLexeme?_of_isNumeral h, Number.ofLiteral?, Number.literalValue_eq]
  cases Number.ofInt? (Number.decimalValue x) <;> rfl

theorem describes_itemOfLexeme {cs x rest : List Char} (h : split? cs = some (x, rest))
    (pos : Position) : (itemOfLexeme x pos).Describes x pos where
  fixed k hk := itemOfLexeme_of_isSpelling (Token.Kind.isSpelling_of_spelling? hk) pos
  string hx := itemOfLexeme_of_isSpelling (k := .string) hx pos
  symbol hx hname := by
    have hword : IsWord (String.ofList x).toList := by rwa [String.toList_ofList]
    exact itemOfLexeme_of_isSpelling (k := .symbol) ⟨hword, hname⟩ pos
  number hx n hn := by
    rw [itemOfLexeme_of_isNumeral hx, Number.ofInt?_eq_some_iff.2 hn]
  outOfRange := by
    constructor
    · intro hitem
      have hx : IsNumeral x := by
        unfold itemOfLexeme at hitem
        split at hitem
        · cases hitem
        · rename_i hnone
          exact Token.Kind.isNumeral_of_ofLexeme?_eq_none h hnone
      refine ⟨hx, ?_⟩
      rw [itemOfLexeme_of_isNumeral hx] at hitem
      split at hitem
      · cases hitem
      · rename_i hnone
        exact Number.ofInt?_eq_none_iff.1 hnone
    · intro ⟨hx, hrange⟩
      rw [itemOfLexeme_of_isNumeral hx, Number.ofInt?_eq_none_iff.2 hrange]

end Lexer

/-- The lexer passes over the longest trivia, and takes the longest lexeme from there. Its item says
which kind the lexeme has by its spelling or its shape, and of a numeral that it is a number of its
decimal value, if this is in range, and else that it is not. Where no lexeme begins, the item is one
illegal character, and the lexer goes on behind this. -/
theorem next_longest (l : Lexer) :
    ∃ gap text, l.rest = gap ++ text ∧ LongestTrivia gap l.rest ∧
      let pos := l.pos.advance gap
      (text = [] → l.next? = none) ∧
      (∀ c cs, text = c :: cs → (∀ x, x <+: text → ¬IsLexeme x) →
        l.next? =
          some (.error ⟨.illegalCharacter c, pos⟩, { l with rest := cs, pos := pos.step c })) ∧
      ((∃ x, x <+: text ∧ IsLexeme x) →
        ∃ x rest item, text = x ++ rest ∧ LongestLexeme x text ∧ item.Describes x pos ∧
          l.next? = some (item, { l with rest, pos := pos.advance x })) := by
  rcases hskip : Trivia.skip false l.pos l.rest with ⟨pos, text⟩
  obtain ⟨gap, hrest, rfl, hgap⟩ := Trivia.longestTrivia_of_skip hskip
  refine ⟨gap, text, hrest, hgap, ?_, ?_, ?_⟩
  · intro htext
    subst htext
    unfold Lexer.next?
    rw [hskip]
  · intro c cs htext hnone
    rw [← split?_eq_none_iff] at hnone
    subst htext
    unfold Lexer.next?
    rw [hskip]
    dsimp only
    rw [hnone]
  · intro ⟨y, hstarts, hy⟩
    obtain ⟨x, hx⟩ := exists_longestLexeme ⟨y, hy, hstarts⟩
    obtain ⟨rest, rfl⟩ := hx.starts
    have hsplit := hx.split?
    refine ⟨x, rest, Lexer.itemOfLexeme x (l.pos.advance gap), rfl, hx,
      Lexer.describes_itemOfLexeme hsplit _, ?_⟩
    obtain ⟨c, cs, hcons⟩ := List.exists_cons_of_ne_nil
      (List.append_ne_nil_of_left_ne_nil (split?_append hsplit).2 rest)
    rw [hcons] at hskip hsplit
    unfold Lexer.next?
    rw [hskip]
    dsimp only
    rw [hsplit]

end PrefixLisp
