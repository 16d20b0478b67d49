import PrefixLisp.Proofs.Token.Extent
import PrefixLisp.Proofs.Token.Stream

/-
  A text with spaces for what the lexer passes over.

  Each error that the lexer reports covers some characters: an illegal one, or a number literal that
  does not fit. `blank` puts a space in place of each of these and leaves all others as they are.
  Nothing runs together by that and nothing falls apart. In front of each lexeme stands the same
  trivia, maybe with spaces behind it, and the character behind a lexeme is either the same or a
  space, which ends every lexeme. So the tokens of the blanked text are those of the text, in the
  same places, and nothing else (`tokenize_blank`).
-/

namespace PrefixLisp

open Trivia Lexeme

/-! ## The order of places -/

namespace Position

/-- The order in which a text goes through its places. -/
instance : LE Position where
  le p q := p.line < q.line ∨ p.line = q.line ∧ p.column ≤ q.column

theorem le_def {p q : Position} :
    p ≤ q ↔ p.line < q.line ∨ p.line = q.line ∧ p.column ≤ q.column :=
  Iff.rfl

theorem le_refl (p : Position) : p ≤ p :=
  .inr ⟨rfl, Nat.le_refl _⟩

theorem le_trans {p q r : Position} (hpq : p ≤ q) (hqr : q ≤ r) : p ≤ r := by
  rw [le_def] at *
  omega

theorem le_step (p : Position) (c : Char) : p ≤ p.step c := by
  unfold step
  split
  · exact .inl (Nat.lt_succ_self _)
  · exact .inr ⟨rfl, Nat.le_succ _⟩

theorem le_advance (p : Position) (text : List Char) : p ≤ p.advance text := by
  induction text generalizing p with
  | nil => exact p.le_refl
  | cons c text ih => exact le_trans (p.le_step c) (ih _)

theorem step_of_ne_newline {c : Char} (h : c ≠ '\n') (p : Position) :
    p.step c = ⟨p.line, p.column + 1⟩ :=
  if_neg h

/-- Characters other than newlines stay on their line. -/
theorem advance_of_ne_newline {text : List Char} (h : ∀ c ∈ text, c ≠ '\n') (p : Position) :
    p.advance text = ⟨p.line, p.column + text.length⟩ := by
  induction text generalizing p with
  | nil => rfl
  | cons c text ih =>
    obtain ⟨hc, htext⟩ := List.forall_mem_cons.1 h
    rw [advance_cons, step_of_ne_newline hc, ih htext, List.length_cons, Nat.add_assoc,
      Nat.add_comm 1]

end Position

/-! ## Blanking -/

/-- Whether the text that an error is about covers a place. -/
def LexError.covers (e : LexError) (p : Position) : Bool :=
  p.line = e.pos.line ∧ e.pos.column ≤ p.column ∧ p.column < e.pos.column + e.cause.text.length

/-- The text `cs`, which begins at `pos`, with a space in place of each character that an error
covers. -/
def blankCovered (errors : List LexError) (pos : Position) : List Char → List Char
  | [] => []
  | c :: cs =>
    (if errors.any (·.covers pos) then ' ' else c) :: blankCovered errors (pos.step c) cs

/-- The text with a space in place of each character that is passed over as an error. -/
def blank (source : String) : String :=
  .ofList (blankCovered (tokenize source).2 .start source.toList)

/-- An error covers nothing in front of its place. -/
theorem LexError.covers_of_step_le {e : LexError} {p : Position} {c : Char}
    (h : p.step c ≤ e.pos) : e.covers p = false := by
  refine decide_eq_false fun ⟨hline, hcol, _⟩ => ?_
  unfold Position.step at h
  split at h
  · rcases h with h | ⟨h, _⟩ <;> dsimp only at h <;> omega
  · rcases h with h | ⟨_, h⟩ <;> dsimp only at h <;> omega

theorem blankCovered_append (errors : List LexError) (pos : Position) (a b : List Char) :
    blankCovered errors pos (a ++ b) =
      blankCovered errors pos a ++ blankCovered errors (pos.advance a) b := by
  induction a generalizing pos with
  | nil => rfl
  | cons c a ih => exact congrArg (_ :: ·) (ih _)

/-- Errors further on leave a text as it is. -/
theorem blankCovered_of_le {errors : List LexError} {pos : Position} {cs : List Char}
    (h : ∀ e ∈ errors, pos.advance cs ≤ e.pos) : blankCovered errors pos cs = cs := by
  induction cs generalizing pos with
  | nil => rfl
  | cons c cs ih =>
    have hnone : errors.any (·.covers pos) = false := by
      rw [List.any_eq_false]
      intro e he
      rw [LexError.covers_of_step_le (Position.le_trans (Position.le_advance _ cs) (h e he))]
      exact Bool.false_ne_true
    rw [blankCovered, hnone, ih h]
    rfl

/-- A gap and a lexeme, with all errors behind them. -/
theorem blankCovered_behind {errors : List LexError} {pos : Position} {gap x rest : List Char}
    (h : ∀ e ∈ errors, (pos.advance gap).advance x ≤ e.pos) :
    blankCovered errors pos (gap ++ (x ++ rest)) =
      gap ++ (x ++ blankCovered errors ((pos.advance gap).advance x) rest) := by
  rw [← Position.advance_append] at h ⊢
  rw [← List.append_assoc, blankCovered_append, blankCovered_of_le h, List.append_assoc]

/-- The first character stays or becomes a space. -/
theorem head?_blankCovered (errors : List LexError) (pos : Position) (cs : List Char) :
    (blankCovered errors pos cs).head? = cs.head? ∨
      (blankCovered errors pos cs).head? = some ' ' := by
  cases cs with
  | nil => exact .inl rfl
  | cons c cs =>
    rw [blankCovered]
    split
    · exact .inr rfl
    · exact .inl rfl

section Covered

variable {e : LexError} {errors : List LexError} {text : List Char}

/-- The text of an error gives way to spaces. -/
theorem blankCovered_text {done : List Char} (htext : e.cause.text = .ofList (done ++ text))
    (hline : ∀ c ∈ done ++ text, c ≠ '\n') :
    blankCovered (e :: errors) (e.pos.advance done) text = List.replicate text.length ' ' := by
  induction text generalizing done with
  | nil => rfl
  | cons c text ih =>
    rw [List.append_cons] at htext hline
    have hcovers : e.covers (e.pos.advance done) = true := by
      have hdone : ∀ d ∈ done, d ≠ '\n' := fun d hd =>
        hline d (List.mem_append_left _ (List.mem_append_left _ hd))
      rw [Position.advance_of_ne_newline hdone, LexError.covers, htext, String.length_ofList,
        decide_eq_true_iff]
      refine ⟨rfl, Nat.le_add_right _ _, ?_⟩
      simp only [List.length_append, List.length_singleton]
      omega
    have hrest := ih htext hline
    rw [Position.advance_append] at hrest
    rw [blankCovered, List.any_cons, hcovers]
    exact congrArg (' ' :: ·) hrest

/-- Behind its text an error covers nothing. -/
theorem blankCovered_cons_of_le (htext : e.cause.text = .ofList text)
    (hline : ∀ c ∈ text, c ≠ '\n') {pos : Position} (hpos : e.pos.advance text ≤ pos)
    (cs : List Char) : blankCovered (e :: errors) pos cs = blankCovered errors pos cs := by
  induction cs generalizing pos with
  | nil => rfl
  | cons c cs ih =>
    have hcovers : e.covers pos = false := by
      refine decide_eq_false fun ⟨hl, _, hc⟩ => ?_
      rw [Position.advance_of_ne_newline hline, Position.le_def] at hpos
      rw [htext, String.length_ofList] at hc
      dsimp only at hpos
      omega
    rw [blankCovered, blankCovered, List.any_cons, hcovers, Bool.false_or,
      ih (Position.le_trans hpos (pos.le_step c))]

/-- A gap, then the text of an error, which stays on its line, and what is behind it. -/
theorem blankCovered_error {pos : Position} {gap rest : List Char} (hpos : e.pos = pos.advance gap)
    (htext : e.cause.text = .ofList text) (hline : ∀ c ∈ text, c ≠ '\n')
    (herrors : ∀ e' ∈ errors, e.pos ≤ e'.pos) :
    blankCovered (e :: errors) pos (gap ++ (text ++ rest)) =
      gap ++ (List.replicate text.length ' ' ++
        blankCovered errors (e.pos.advance text) rest) := by
  have hgap : ∀ e' ∈ e :: errors, pos.advance gap ≤ e'.pos :=
    hpos ▸ List.forall_mem_cons.2 ⟨e.pos.le_refl, herrors⟩
  rw [blankCovered_append, blankCovered_of_le hgap, ← hpos, blankCovered_append,
    blankCovered_cons_of_le htext hline (Position.le_refl _)]
  exact congrArg (fun x => gap ++ (x ++ _)) (@blankCovered_text e errors text [] htext hline)

end Covered

/-! ## The items of the blanked text -/

/-- What stands in front of a lexeme is over there, whatever comes behind it instead. -/
theorem Trivia.exists_gap {comment : Bool} {pos pos' : Position} {cs rest : List Char}
    (h : skip comment pos cs = (pos', rest)) (hne : rest ≠ []) :
    ∃ gap, cs = gap ++ rest ∧ pos' = pos.advance gap ∧
      ∀ more, skip comment pos (gap ++ more) = skip false pos' more := by
  induction cs generalizing comment pos with
  | nil =>
    cases h
    exact absurd rfl hne
  | cons c cs ih =>
    by_cases hc : continues comment c
    · rw [skip_cons_of_continues hc] at h
      obtain ⟨gap, hcs, hpos, hgap⟩ := ih h
      refine ⟨c :: gap, congrArg (c :: ·) hcs, hpos, fun more => ?_⟩
      rw [List.cons_append, skip_cons_of_continues hc, hgap]
    · rw [skip_cons_of_not_continues (by simpa using hc)] at h
      cases h
      refine ⟨[], rfl, rfl, fun more => ?_⟩
      cases comment with
      | false => rfl
      | true => exact absurd rfl hc

namespace Lexer

/-- The errors of the text `cs`, which begins at `pos`. -/
def errorsFrom (pos : Position) (cs : List Char) : List LexError :=
  (stream pos cs).filterMap LexItem.error?

/-- The errors of a text lie behind its beginning. -/
theorem le_pos_of_mem_errorsFrom {pos : Position} {cs : List Char} {e : LexError}
    (h : e ∈ errorsFrom pos cs) : pos ≤ e.pos := by
  unfold errorsFrom at h
  induction pos, cs using stream_induction with
  | trivia hskip =>
    rw [stream_skip hskip, stream_nil] at h
    cases h
  | @lexeme pos pos' cs ds x rest hskip hsplit ih =>
    obtain ⟨gap, rfl, rfl⟩ := skip_pos hskip
    have hle := Position.le_trans (pos.le_advance gap) (Position.le_advance _ x)
    rw [stream_skip hskip, stream_lexeme hsplit] at h
    unfold itemOfLexeme at h
    cases hk : Token.Kind.ofLexeme? x with
    | some k =>
      rw [hk] at h
      exact Position.le_trans hle (ih h)
    | none =>
      rw [hk] at h
      rcases List.mem_cons.1 h with rfl | hmem
      · exact pos.le_advance gap
      · exact Position.le_trans hle (ih hmem)
  | @illegal pos pos' cs c rest hskip hc hsplit ih =>
    obtain ⟨gap, rfl, rfl⟩ := skip_pos hskip
    rw [stream_skip hskip, stream_illegal hc hsplit] at h
    rcases List.mem_cons.1 h with rfl | hmem
    · exact pos.le_advance gap
    · exact Position.le_trans (Position.le_trans (pos.le_advance gap) (Position.le_step _ c))
        (ih hmem)

/-- What is split off a text stays split off if characters behind it become spaces. -/
theorem split?_blankCovered {x rest : List Char} (h : split? (x ++ rest) = some (x, rest))
    (errors : List LexError) (pos : Position) :
    split? (x ++ blankCovered errors pos rest) = some (x, blankCovered errors pos rest) := by
  rw [split?_append_eq_some_iff] at h ⊢
  rcases head?_blankCovered errors pos rest with hhead | hhead
  · rw [hhead]
    exact h
  · rw [hhead]
    exact h.of_space

theorem stream_spaces (n : Nat) (pos : Position) (cs : List Char) :
    stream pos (List.replicate n ' ' ++ cs) = stream (pos.advance (List.replicate n ' ')) cs := by
  induction n generalizing pos with
  | zero => rfl
  | succ n ih =>
    rw [List.replicate_succ, List.cons_append, stream_blank (by decide), ih,
      Position.advance_cons]

/-- With spaces for the text of its first error, a text begins with the next item. -/
theorem stream_blankCovered_error {pos : Position} {gap text rest : List Char} {e : LexError}
    {errors : List LexError} (hpos : e.pos = pos.advance gap)
    (hgap : ∀ more, skip false pos (gap ++ more) = skip false e.pos more)
    (htext : e.cause.text = .ofList text) (hline : ∀ c ∈ text, c ≠ '\n')
    (herrors : ∀ e' ∈ errors, e.pos ≤ e'.pos) :
    stream pos (blankCovered (e :: errors) pos (gap ++ (text ++ rest))) =
      stream (e.pos.advance text) (blankCovered errors (e.pos.advance text) rest) := by
  have hspaces : ∀ c ∈ List.replicate text.length ' ', c ≠ '\n' := by
    intro c hc
    rw [List.eq_of_mem_replicate hc]
    decide
  have hadvance : e.pos.advance (List.replicate text.length ' ') = e.pos.advance text := by
    rw [Position.advance_of_ne_newline hspaces, Position.advance_of_ne_newline hline,
      List.length_replicate]
  rw [blankCovered_error hpos htext hline herrors, stream_congr (hgap _), stream_spaces, hadvance]

theorem ne_newline_of_isNumeral {x : List Char} (h : IsNumeral x) : ∀ c ∈ x, c ≠ '\n' := by
  obtain ⟨ds, _, hds, hx⟩ := h
  rintro _ hc rfl
  have hdigit : '\n' ∉ ds := fun hmem => absurd (hds _ hmem) (by decide)
  rcases hx with rfl | rfl
  · exact hdigit hc
  · exact hdigit (List.mem_of_ne_of_mem (by decide) hc)

/-- The blanked text gives the tokens of the text, in their places, and nothing else. -/
theorem stream_blankCovered (pos : Position) (cs : List Char) :
    stream pos (blankCovered (errorsFrom pos cs) pos cs) =
      ((stream pos cs).filterMap LexItem.token?).map .ok := by
  induction pos, cs using stream_induction with
  | @trivia pos _ cs hskip =>
    have hstream : stream pos cs = [] := (stream_skip hskip).trans (stream_nil _)
    have herrors : errorsFrom pos cs = [] := congrArg (List.filterMap LexItem.error?) hstream
    rw [herrors, blankCovered_of_le (by nofun), hstream]
    rfl
  | @lexeme pos _ _ _ x rest hskip hsplit ih =>
    obtain ⟨rfl, hne⟩ := split?_append hsplit
    obtain ⟨gap, rfl, rfl, hgap⟩ := exists_gap hskip (List.append_ne_nil_of_left_ne_nil hne rest)
    have hstream := (stream_skip hskip).trans (stream_lexeme hsplit _)
    unfold itemOfLexeme at hstream
    cases hk : Token.Kind.ofLexeme? x with
    | some k =>
      rw [hk] at hstream
      have herrors : errorsFrom pos (gap ++ (x ++ rest)) =
          errorsFrom ((pos.advance gap).advance x) rest :=
        (congrArg (List.filterMap LexItem.error?) hstream).trans rfl
      rw [herrors, blankCovered_behind fun _ => le_pos_of_mem_errorsFrom, stream_congr (hgap _),
        stream_lexeme (split?_blankCovered hsplit _ _), ih, hstream]
      unfold itemOfLexeme
      rw [hk]
      rfl
    | none =>
      rw [hk] at hstream
      have hline := ne_newline_of_isNumeral (Token.Kind.isNumeral_of_ofLexeme?_eq_none hsplit hk)
      have herrors : errorsFrom pos (gap ++ (x ++ rest)) =
          ⟨.numberOutOfRange (.ofList x), pos.advance gap⟩ ::
            errorsFrom ((pos.advance gap).advance x) rest :=
        congrArg (List.filterMap LexItem.error?) hstream
      rw [herrors, hstream, stream_blankCovered_error rfl hgap rfl hline fun _ he =>
        Position.le_trans (Position.le_advance _ x) (le_pos_of_mem_errorsFrom he), ih]
      rfl
  | @illegal pos _ _ c rest hskip hc hsplit ih =>
    obtain ⟨gap, rfl, rfl, hgap⟩ := exists_gap hskip (List.cons_ne_nil c rest)
    have hstream := (stream_skip hskip).trans (stream_illegal hc hsplit _)
    have hline : ∀ d ∈ [c], d ≠ '\n' := by
      rintro d hd rfl
      rw [← List.mem_singleton.1 hd] at hc
      cases hc
    have herrors : errorsFrom pos (gap ++ c :: rest) =
        ⟨.illegalCharacter c, pos.advance gap⟩ ::
          errorsFrom ((pos.advance gap).step c) rest :=
      congrArg (List.filterMap LexItem.error?) hstream
    rw [herrors, hstream]
    exact (stream_blankCovered_error rfl hgap rfl hline fun _ he =>
      Position.le_trans (Position.le_step _ c) (le_pos_of_mem_errorsFrom he)).trans ih

end Lexer

theorem tokenize_blank (source : String) : tokenize (blank source) = ((tokenize source).1, []) := by
  rw [tokenize_eq_iff, blank, String.toList_ofList]
  exact Lexer.stream_blankCovered .start source.toList

end PrefixLisp
