import PrefixLisp.Proofs.Token.Boundary
import PrefixLisp.Token.Lexer

/-
  The item stream of a text.

  `stream pos cs` is what the lexer gives for the text `cs` from the place `pos` on. It passes over
  trivia (`stream_skip`), and then it is empty, begins with the item of a lexeme, or begins with an
  illegal character; `stream_induction` is induction along these three cases.

  Streams compose over a newline, unless an open quote runs across it (`stream_append_newline`),
  and a text that is moved down by some lines gives the same items, moved with it (`stream_below`).
  So the items of two texts, one below the other, are those of each by itself (`items_newline`).
  Every token of a stream is spelled as its kind is (`isSpelling_of_mem_stream`), and a spelling
  before a delimiter is one token (`stream_spelling`).
-/

namespace PrefixLisp

namespace Trivia

theorem skip_cons_of_continues {comment : Bool} {c : Char} (h : continues comment c)
    (pos : Position) (cs : List Char) :
    skip comment pos (c :: cs) = skip (commentAfter comment c) (pos.step c) cs := by
  rw [skip, if_pos h]

theorem skip_cons_of_not_continues {comment : Bool} {c : Char} (h : continues comment c = false)
    (pos : Position) (cs : List Char) : skip comment pos (c :: cs) = (pos, c :: cs) := by
  rw [skip, if_neg (by simp [h])]

/-- What comes behind trivia is not trivia. -/
theorem skip_eq_cons {comment : Bool} {pos pos' : Position} {cs ds : List Char} {d : Char}
    (h : skip comment pos cs = (pos', d :: ds)) : continues false d = false := by
  induction cs generalizing comment pos with
  | nil => cases h
  | cons c cs ih =>
    by_cases hc : continues comment c
    · rw [skip_cons_of_continues hc] at h
      exact ih h
    · have hc' : continues comment c = false := by simpa using hc
      rw [skip_cons_of_not_continues hc'] at h
      cases h
      cases comment with
      | false => exact hc'
      | true => exact absurd rfl hc

theorem skip_pos {comment : Bool} {pos pos' : Position} {cs rest : List Char}
    (h : skip comment pos cs = (pos', rest)) :
    ∃ gap, cs = gap ++ rest ∧ pos' = pos.advance gap := by
  induction cs generalizing comment pos with
  | nil => cases h; exact ⟨[], rfl, rfl⟩
  | cons c cs ih =>
    by_cases hc : continues comment c
    · rw [skip_cons_of_continues hc] at h
      obtain ⟨gap, hcs, hpos⟩ := ih h
      exact ⟨c :: gap, congrArg (c :: ·) hcs, hpos⟩
    · rw [skip_cons_of_not_continues (by simpa using hc)] at h
      cases h
      exact ⟨[], rfl, rfl⟩

/-- What stands behind the end of some trivia has no part in it. -/
theorem skip_append_of_ne_nil {comment : Bool} {pos pos' : Position} {cs rest : List Char}
    (h : skip comment pos cs = (pos', rest)) (hne : rest ≠ []) (more : List Char) :
    skip comment pos (cs ++ more) = (pos', rest ++ more) := by
  induction cs generalizing comment pos with
  | nil =>
    cases h
    exact absurd rfl hne
  | cons c cs ih =>
    rw [List.cons_append]
    by_cases hc : continues comment c
    · rw [skip_cons_of_continues hc] at h ⊢
      exact ih h
    · have hc' : continues comment c = false := by simpa using hc
      rw [skip_cons_of_not_continues hc'] at h ⊢
      cases h
      rfl

/-- A newline ends every comment. -/
theorem skip_append_newline {comment : Bool} {pos pos' : Position} {cs : List Char}
    (h : skip comment pos cs = (pos', [])) (more : List Char) :
    skip comment pos (cs ++ '\n' :: more) = skip false (pos'.step '\n') more := by
  induction cs generalizing comment pos with
  | nil =>
    cases h
    have hc : continues comment '\n' := by cases comment <;> rfl
    have hafter : commentAfter comment '\n' = false := by cases comment <;> rfl
    rw [List.nil_append, skip_cons_of_continues hc, hafter]
  | cons c cs ih =>
    rw [List.cons_append]
    by_cases hc : continues comment c
    · rw [skip_cons_of_continues hc] at h ⊢
      exact ih h
    · rw [skip_cons_of_not_continues (by simpa using hc)] at h
      cases h

end Trivia

open Trivia Lexeme

namespace Lexer

/-- No lexeme begins where trivia does. -/
theorem continues_eq_false_of_split? {c : Char} {cs x rest : List Char}
    (h : split? (c :: cs) = some (x, rest)) : continues false c = false := by
  rw [Bool.eq_false_iff]
  intro hc
  have hcases : c = ' ' ∨ c = '\t' ∨ c = '\r' ∨ c = '\n' ∨ c = ';' := by
    simpa [continues, isBlank, or_assoc] using hc
  obtain ⟨heq, hne⟩ := split?_append h
  obtain ⟨d, x, rfl⟩ := List.exists_cons_of_ne_nil hne
  obtain ⟨rfl, _⟩ := List.cons.inj heq
  rcases shape_of_split? h with hx | hx | hx | hx
  · obtain ⟨_, _, heq, hd⟩ := hx.head
    cases heq
    rcases hcases with rfl | rfl | rfl | rfl | rfl <;> exact absurd hd (by decide)
  · obtain ⟨_, _, heq, hd, _⟩ := hx
    cases heq
    rcases hcases with rfl | rfl | rfl | rfl | rfl <;> exact absurd hd (by decide)
  · obtain ⟨_, heq, _⟩ := hx
    cases heq
    exact absurd hcases (by decide)
  · have hall : (marks.all fun m => !m.head?.any (continues false)) = true := by decide
    have hhead := List.all_eq_true.1 hall _ hx
    simp [hc] at hhead

/-! ## Streams -/

/-- The items of the text `cs`, which begins at `pos`. -/
def stream (pos : Position) (cs : List Char) : List LexItem :=
  (Lexer.mk cs cs pos).items

theorem items_eq (l : Lexer) :
    l.items = match l.next? with
      | none => []
      | some (item, l') => item :: l'.items := by
  rw [items]
  split <;> simp_all

/-- The source is kept for going back only. -/
theorem next?_source (l : Lexer) (source : List Char) :
    { l with source }.next? = l.next?.map fun p => (p.1, { p.2 with source }) := by
  unfold next?
  dsimp only
  rcases Trivia.skip false l.pos l.rest with ⟨pos, _ | ⟨c, cs⟩⟩
  · rfl
  · dsimp only
    split <;> rfl

theorem items_source (l : Lexer) (source : List Char) : { l with source }.items = l.items := by
  rw [items_eq, items_eq l, next?_source]
  match h : l.next? with
  | none => rfl
  | some (item, l') =>
    have := length_rest_lt_of_next? h
    exact congrArg (item :: ·) (items_source l' source)
termination_by l.rest.length

theorem items_mk (source cs : List Char) (pos : Position) :
    (Lexer.mk source cs pos).items = stream pos cs :=
  items_source ⟨cs, cs, pos⟩ source

theorem items_ofString (source : String) :
    (ofString source).items = stream .start source.toList :=
  rfl

/-- A stream depends on what comes behind the trivia only. -/
theorem stream_congr {pos pos' : Position} {cs cs' : List Char}
    (h : skip false pos cs = skip false pos' cs') : stream pos cs = stream pos' cs' := by
  unfold stream
  rw [items_eq, items_eq ⟨cs', cs', pos'⟩]
  unfold next?
  dsimp only
  rw [h]
  rcases Trivia.skip false pos' cs' with ⟨pos, _ | ⟨c, cs⟩⟩
  · rfl
  · dsimp only
    rcases split? (c :: cs) with _ | ⟨x, rest⟩ <;> simp only [items_mk]

theorem stream_skip {pos pos' : Position} {cs rest : List Char}
    (h : skip false pos cs = (pos', rest)) : stream pos cs = stream pos' rest := by
  refine stream_congr (h.trans ?_)
  cases rest with
  | nil => rfl
  | cons d ds => rw [skip_cons_of_not_continues (skip_eq_cons h)]

theorem stream_nil (pos : Position) : stream pos [] = [] := by
  unfold stream
  rw [items_eq]
  rfl

theorem stream_blank {c : Char} (h : isBlank c) (pos : Position) (cs : List Char) :
    stream pos (c :: cs) = stream (pos.step c) cs := by
  have hc : continues false c := by simp [continues, h]
  have hafter : commentAfter false c = false := by
    have : c ≠ ';' := by
      rintro rfl
      exact absurd h (by decide)
    simp [commentAfter, this]
  refine stream_congr ?_
  rw [skip_cons_of_continues hc, hafter]

theorem stream_lexeme {cs x rest : List Char} (h : split? cs = some (x, rest)) (pos : Position) :
    stream pos cs = itemOfLexeme x pos :: stream (pos.advance x) rest := by
  cases cs with
  | nil => cases h
  | cons c cs =>
    have hskip : skip false pos (c :: cs) = (pos, c :: cs) :=
      skip_cons_of_not_continues (continues_eq_false_of_split? h) pos cs
    unfold stream
    rw [items_eq]
    unfold next?
    rw [hskip]
    dsimp only
    rw [h]
    dsimp only
    rw [items_mk]
    rfl

theorem stream_illegal {c : Char} {cs : List Char} (hc : continues false c = false)
    (h : split? (c :: cs) = none) (pos : Position) :
    stream pos (c :: cs) = .error ⟨.illegalCharacter c, pos⟩ :: stream (pos.step c) cs := by
  unfold stream
  rw [items_eq]
  unfold next?
  rw [skip_cons_of_not_continues hc]
  dsimp only
  rw [h]
  dsimp only
  rw [items_mk]
  rfl

/-- Induction along a stream: nothing but trivia, a lexeme, or an illegal character. -/
theorem stream_induction {P : Position → List Char → Prop}
    (trivia : ∀ {pos pos' cs}, skip false pos cs = (pos', []) → P pos cs)
    (lexeme : ∀ {pos pos' cs ds x rest}, skip false pos cs = (pos', ds) →
      split? ds = some (x, rest) → P (pos'.advance x) rest → P pos cs)
    (illegal : ∀ {pos pos' cs c rest}, skip false pos cs = (pos', c :: rest) →
      continues false c = false → split? (c :: rest) = none → P (pos'.step c) rest → P pos cs)
    (pos : Position) (cs : List Char) : P pos cs := by
  have hle := length_skip_le false pos cs
  match hskip : skip false pos cs with
  | (pos', []) => exact trivia hskip
  | (pos', c :: rest) =>
    rw [hskip] at hle
    match hsplit : split? (c :: rest) with
    | some (x, rest') =>
      obtain ⟨heq, hne⟩ := split?_append hsplit
      have hlen := congrArg List.length heq
      have hpos := List.length_pos_iff.2 hne
      rw [List.length_append] at hlen
      have : rest'.length < cs.length := by
        dsimp only at hle
        omega
      exact lexeme hskip hsplit (stream_induction trivia lexeme illegal _ _)
    | none =>
      have : rest.length < cs.length := hle
      exact illegal hskip (skip_eq_cons hskip) hsplit
        (stream_induction trivia lexeme illegal _ _)
termination_by cs.length

/-! ## Spellings in a stream -/

theorem itemOfLexeme_of_isSpelling {k : Token.Kind} {x : List Char} (h : k.IsSpelling x)
    (pos : Position) : itemOfLexeme x pos = .ok ⟨k, .ofList x, pos⟩ := by
  unfold itemOfLexeme
  rw [Token.Kind.ofLexeme?_of_isSpelling h]

theorem stream_spelling {k : Token.Kind} {x rest : List Char} (h : k.IsSpelling x)
    (hrest : Delimited rest) (pos : Position) :
    stream pos (x ++ rest) = .ok ⟨k, .ofList x, pos⟩ :: stream (pos.advance x) rest := by
  rw [stream_lexeme (split?_append_of_isSpelling h hrest), itemOfLexeme_of_isSpelling h]

theorem stream_openParen (pos : Position) (rest : List Char) :
    stream pos ('(' :: rest) = .ok ⟨.openParen, "(", pos⟩ :: stream (pos.step '(') rest := by
  rw [stream_lexeme (split?_paren (.inl rfl) rest),
    itemOfLexeme_of_isSpelling (k := .openParen) rfl]
  rfl

theorem stream_closeParen (pos : Position) (rest : List Char) :
    stream pos (')' :: rest) = .ok ⟨.closeParen, ")", pos⟩ :: stream (pos.step ')') rest := by
  rw [stream_lexeme (split?_paren (.inr rfl) rest),
    itemOfLexeme_of_isSpelling (k := .closeParen) rfl]
  rfl

/-- A token that the lexer gives is spelled as its kind is. -/
theorem isSpelling_of_mem_stream {pos : Position} {cs : List Char} {t : Token}
    (h : .ok t ∈ stream pos cs) : t.kind.IsSpelling t.lexeme.toList := by
  induction pos, cs using stream_induction with
  | trivia hskip =>
    rw [stream_skip hskip, stream_nil] at h
    cases h
  | @lexeme _ pos _ _ x rest hskip hsplit ih =>
    rw [stream_skip hskip, stream_lexeme hsplit] at h
    rcases List.mem_cons.1 h with heq | hmem
    · unfold itemOfLexeme at heq
      split at heq
      · rename_i k hk
        cases heq
        rw [String.toList_ofList]
        exact Token.Kind.isSpelling_of_ofLexeme? hsplit hk
      · cases heq
    · exact ih hmem
  | illegal hskip hc hsplit ih =>
    rw [stream_skip hskip, stream_illegal hc hsplit] at h
    rcases List.mem_cons.1 h with heq | hmem
    · cases heq
    · exact ih hmem

/-! ## Composition over a newline -/

theorem delimited_newline (cs : List Char) : Delimited ('\n' :: cs) :=
  delimited_cons.2 (by decide)

/-- A newline separates two texts, unless an open quote in the first one runs across it. -/
theorem stream_append_newline {pos : Position} {cs : List Char}
    (hquote : ∀ p, .error ⟨.illegalCharacter '"', p⟩ ∉ stream pos cs) (more : List Char) :
    stream pos (cs ++ '\n' :: more) =
      stream pos cs ++ stream ((pos.advance cs).step '\n') more := by
  induction pos, cs using stream_induction with
  | trivia hskip =>
    obtain ⟨gap, rfl, rfl⟩ := skip_pos hskip
    rw [stream_congr (skip_append_newline hskip more), stream_skip hskip, stream_nil,
      List.append_nil, List.nil_append]
  | @lexeme pos _ cs ds x rest hskip hsplit ih =>
    obtain ⟨gap, rfl, rfl⟩ := skip_pos hskip
    obtain ⟨rfl, hne⟩ := split?_append hsplit
    have hne' : x ++ rest ≠ [] := List.append_ne_nil_of_left_ne_nil hne rest
    have hsplit' : split? (x ++ rest ++ '\n' :: more) = some (x, rest ++ '\n' :: more) := by
      rw [split?_append_of_delimited hne' (delimited_newline more) (by rw [hsplit]; nofun), hsplit]
      rfl
    rw [stream_skip hskip, stream_lexeme hsplit] at hquote ⊢
    rw [stream_skip (skip_append_of_ne_nil hskip hne' _), stream_lexeme hsplit',
      ih fun p hp => hquote p (List.mem_cons_of_mem _ hp), Position.advance_append,
      Position.advance_append]
    rfl
  | @illegal pos _ cs c rest hskip hc hsplit ih =>
    obtain ⟨gap, rfl, rfl⟩ := skip_pos hskip
    rw [stream_skip hskip, stream_illegal hc hsplit] at hquote ⊢
    have hne : c ≠ '"' := by
      rintro rfl
      exact hquote _ List.mem_cons_self
    have hsplit' : split? (c :: (rest ++ '\n' :: more)) = none := by
      rw [← List.cons_append, split?_append_of_delimited (List.cons_ne_nil c rest)
        (delimited_newline more) (fun _ heq => hne (Option.some.inj heq)), hsplit]
      rfl
    rw [stream_skip (skip_append_of_ne_nil hskip (List.cons_ne_nil c rest) _), List.cons_append,
      stream_illegal hc hsplit', ih fun p hp => hquote p (List.mem_cons_of_mem _ hp),
      Position.advance_append]
    rfl

end Lexer

/-! ## A text further down -/

/-- The place `n` lines further down, in the same column. -/
def Position.below (n : Nat) (p : Position) : Position :=
  ⟨p.line + n, p.column⟩

def Token.below (n : Nat) (t : Token) : Token :=
  { t with pos := t.pos.below n }

def LexItem.below (n : Nat) : LexItem → LexItem
  | .ok t => .ok (t.below n)
  | .error e => .error { e with pos := e.pos.below n }

theorem Position.below_step (n : Nat) (p : Position) (c : Char) :
    (p.below n).step c = (p.step c).below n := by
  unfold Position.step
  split
  · unfold Position.below
    rw [Nat.add_right_comm]
  · rfl

theorem Position.below_advance (n : Nat) (p : Position) (text : List Char) :
    (p.below n).advance text = (p.advance text).below n := by
  induction text generalizing p with
  | nil => rfl
  | cons c text ih => rw [advance_cons, below_step, ih, advance_cons]

/-- The place behind a newline is the first one, further down. -/
theorem Position.step_newline (p : Position) : p.step '\n' = start.below p.line := by
  rw [step, if_pos rfl, below, Nat.add_comm]
  rfl

/-- Every newline is one line more. -/
theorem Position.line_advance (p : Position) (text : List Char) :
    (p.advance text).line = p.line + text.count '\n' := by
  induction text generalizing p with
  | nil => rfl
  | cons c text ih =>
    rw [advance_cons, ih, List.count_cons]
    by_cases hc : c = '\n'
    · rw [step, if_pos hc, if_pos (beq_iff_eq.2 hc)]
      dsimp only
      omega
    · rw [step, if_neg hc, if_neg (by simpa using hc)]
      rfl

theorem Trivia.skip_below (n : Nat) {comment : Bool} {pos pos' : Position} {cs rest : List Char}
    (h : skip comment pos cs = (pos', rest)) :
    skip comment (pos.below n) cs = (pos'.below n, rest) := by
  induction cs generalizing comment pos with
  | nil => cases h; rfl
  | cons c cs ih =>
    by_cases hc : continues comment c
    · rw [skip_cons_of_continues hc] at h ⊢
      rw [Position.below_step]
      exact ih h
    · have hc' : continues comment c = false := by simpa using hc
      rw [skip_cons_of_not_continues hc'] at h ⊢
      cases h
      rfl

namespace Lexer

theorem itemOfLexeme_below (n : Nat) (x : List Char) (pos : Position) :
    itemOfLexeme x (pos.below n) = (itemOfLexeme x pos).below n := by
  unfold itemOfLexeme
  split <;> rfl

/-- A text that begins `n` lines further down has the same items, `n` lines further down. -/
theorem stream_below (n : Nat) (pos : Position) (cs : List Char) :
    stream (pos.below n) cs = (stream pos cs).map (LexItem.below n) := by
  induction pos, cs using stream_induction with
  | trivia hskip =>
    rw [stream_skip (skip_below n hskip), stream_skip hskip, stream_nil, stream_nil]
    rfl
  | lexeme hskip hsplit ih =>
    rw [stream_skip (skip_below n hskip), stream_skip hskip, stream_lexeme hsplit,
      stream_lexeme hsplit, Position.below_advance, ih, itemOfLexeme_below]
    rfl
  | illegal hskip hc hsplit ih =>
    rw [stream_skip (skip_below n hskip), stream_skip hskip, stream_illegal hc hsplit,
      stream_illegal hc hsplit, Position.below_step, ih]
    rfl

/-- Two texts with a newline between them: the second one stands below the lines of the first. -/
theorem stream_newline {source : String}
    (hquote : ∀ p, .error ⟨.illegalCharacter '"', p⟩ ∉ stream .start source.toList)
    (more : String) :
    stream .start (source ++ "\n" ++ more).toList =
      stream .start source.toList ++
        (stream .start more.toList).map (LexItem.below (1 + source.toList.count '\n')) := by
  have htext : (source ++ "\n" ++ more).toList = source.toList ++ '\n' :: more.toList := by
    rw [String.toList_append, String.toList_append, List.append_assoc]
    rfl
  rw [htext, stream_append_newline hquote, Position.step_newline, Position.line_advance,
    stream_below]
  rfl

end Lexer

/-- Items compose over a newline, tokens and errors alike, if no quote is left open in the first
text. The items of the second one are those that it has by itself, in the same columns, one line
further down and one more for every newline of the first. -/
theorem items_newline (source more : String)
    (hquote : ∀ p, .error ⟨.illegalCharacter '"', p⟩ ∉ (Lexer.ofString source).items) :
    (Lexer.ofString (source ++ "\n" ++ more)).items =
      (Lexer.ofString source).items ++
        (Lexer.ofString more).items.map (LexItem.below (1 + source.toList.count '\n')) := by
  rw [Lexer.items_ofString] at hquote
  rw [Lexer.items_ofString, Lexer.items_ofString, Lexer.items_ofString]
  exact Lexer.stream_newline hquote more

/-- A literal that is out of range, a string over two lines, and a quote in a comment. -/
theorem items_newline_quotes :
    let source := "9223372036854775808\"a\nb\"; \""
    let more := "# \"c\"-"
    (∀ p, .error ⟨.illegalCharacter '"', p⟩ ∉ (Lexer.ofString source).items) ∧
      (Lexer.ofString (source ++ "\n" ++ more)).items =
        (Lexer.ofString source).items ++
          (Lexer.ofString more).items.map (LexItem.below (1 + source.toList.count '\n')) := by
  intro source more
  have hitems : (Lexer.ofString source).items =
      [.error ⟨.numberOutOfRange "9223372036854775808", ⟨1, 1⟩⟩,
        .ok ⟨.string, "\"a\nb\"", ⟨1, 20⟩⟩] := by
    decide +kernel
  have hquote : ∀ p, .error ⟨.illegalCharacter '"', p⟩ ∉ (Lexer.ofString source).items := by
    rw [hitems]
    simp
  exact ⟨hquote, items_newline source more hquote⟩

/-- A quote that is left open runs on until the next one, across the newline. -/
example : (Lexer.ofString ("\"a" ++ "\n" ++ "b\"")).items =
    [.ok ⟨.string, "\"a\nb\"", ⟨1, 1⟩⟩] := by
  decide +kernel

/-! ## Tokens and errors -/

theorem isSpelling_of_mem_tokenize {source : String} {t : Token} (h : t ∈ (tokenize source).1) :
    t.kind.IsSpelling t.lexeme.toList := by
  obtain ⟨item, hitem, ht⟩ := List.mem_filterMap.1 h
  cases item with
  | ok u =>
    cases ht
    exact Lexer.isSpelling_of_mem_stream hitem
  | error e => cases ht

theorem filterMap_token?_eq_iff {items : List LexItem} {ts : List Token} :
    items.filterMap LexItem.token? = ts ∧ items.filterMap LexItem.error? = [] ↔
      items = ts.map .ok := by
  induction items generalizing ts with
  | nil => cases ts <;> simp
  | cons item items ih =>
    cases item with
    | error e =>
      constructor
      · rintro ⟨_, h⟩
        cases h
      · intro h
        cases ts <;> cases h
    | ok t =>
      show t :: items.filterMap LexItem.token? = ts ∧ items.filterMap LexItem.error? = [] ↔ _
      cases ts with
      | nil => simp
      | cons u us => simp only [List.map_cons, List.cons.injEq, and_assoc, ih, Except.ok.injEq]

/-- Nothing is passed over just if the tokens are all there is. -/
theorem tokenize_eq_iff {source : String} {ts : List Token} :
    tokenize source = (ts, []) ↔ Lexer.stream .start source.toList = ts.map .ok := by
  rw [← Lexer.items_ofString, ← filterMap_token?_eq_iff]
  unfold tokenize
  rw [Prod.mk.injEq]

end PrefixLisp
