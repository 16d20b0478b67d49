import PrefixLisp.Proofs.Eval.Effect
import PrefixLisp.Proofs.Eval.Printing

/-
  Runs on an output that fills up.

  An output with room for `n` bytes takes the first `n` of all that is printed and refuses the rest.
  A run is thereby cut short, and nothing else about it changes (`eval_limited`). If what it prints
  on an output without a limit comes to `n` bytes at most, it goes the same way on the limited one.
  Otherwise it fails where the first byte too many is printed, in whatever expression and however
  many calls deep that is.

  `Output.upTo n o` is the limited output where the one without a limit has got to `o`. Writing a
  text on it takes what is left of the first `n` bytes (`Output.write_upTo`), so the two belong
  together even where a text is cut in two, or a character. `Truncates n x` says of a run what is
  said above of evaluations. It passes through sequencing, since going on only adds to what was
  printed, and so it is a `Congruence`.
-/

namespace PrefixLisp

/-! ## Outputs -/

namespace Output

/-- The output that takes the first `n` bytes of what the other one has taken, and of all that is
still to come. -/
def upTo (n : Nat) (o : Output) : Output :=
  ⟨o.written.extract 0 n, some (n - o.written.size)⟩

variable {n : Nat} {o : Output}

theorem upTo_unbounded (n : Nat) : unbounded.upTo n = limited n := by
  unfold upTo unbounded limited
  simp

theorem size_write (h : o.room = none) (text : String) :
    (o.write text).written.size = o.written.size + text.utf8ByteSize := by
  rw [write_of_room_eq_none h]
  exact ByteArray.size_append

/-- With enough room nothing is cut. -/
theorem written_upTo (h : o.written.size ≤ n) : (o.upTo n).written = o.written := by
  show o.written.extract 0 n = o.written
  rw [← Nat.max_eq_left h, ByteArray.extract_zero_max_size]

/-- Once the room is used up, what is printed further makes no difference. -/
theorem upTo_of_le {o' : Output} {printed : ByteArray}
    (hprinted : o'.written = o.written ++ printed) (h : n ≤ o.written.size) :
    o'.upTo n = o.upTo n := by
  have hnone : printed.extract (0 - o.written.size) (n - o.written.size) = .empty := by
    rw [ByteArray.extract_eq_empty_iff]
    omega
  have hroom : n - (o.written.size + printed.size) = n - o.written.size := by omega
  unfold upTo
  rw [hprinted, ByteArray.extract_append, hnone, ByteArray.append_empty, ByteArray.size_append,
    hroom]

/-- A text on both outputs, be there room for all of it or not. -/
theorem write_upTo (n : Nat) (h : o.room = none) (text : String) :
    (o.upTo n).write text = (o.write text).upTo n := by
  have hsize : text.toUTF8.size = text.utf8ByteSize := rfl
  rw [write_of_room_eq_none h]
  unfold write upTo
  dsimp only
  rw [ByteArray.extract_append, ByteArray.size_append, hsize, Nat.zero_sub, Nat.sub_sub]

theorem fits_upTo (h : o.room = none) (hsize : o.written.size ≤ n) (text : String) :
    (o.upTo n).fits text ↔ (o.write text).written.size ≤ n := by
  rw [size_write h]
  unfold fits upTo
  rw [decide_eq_true_iff]
  omega

theorem write_empty (o : Output) : o.write "" = o := by
  obtain ⟨written, _ | n⟩ := o
  · simp [write]
  · have hnone : ByteArray.empty.extract 0 n = .empty := by
      rw [ByteArray.extract_eq_empty_iff]
      exact Nat.min_le_right n 0
    simp [write, hnone]

theorem fits_empty (o : Output) : o.fits "" = true := by
  obtain ⟨written, room⟩ := o
  cases room <;> simp [fits]

/-- Two texts are written like one. -/
theorem write_append (o : Output) (a b : String) : o.write (a ++ b) = (o.write a).write b := by
  have htext : (a ++ b).toUTF8 = a.toUTF8 ++ b.toUTF8 := rfl
  have hsize : a.toUTF8.size = a.utf8ByteSize := rfl
  unfold write
  cases o.room with
  | none =>
    dsimp only
    rw [htext, ByteArray.append_assoc]
  | some n =>
    dsimp only
    rw [htext, ByteArray.extract_append, hsize, ByteArray.append_assoc, Nat.zero_sub,
      String.utf8ByteSize_append, Nat.sub_sub]

/-- Two texts fit just if the first one does, and then the second one. -/
theorem fits_append (o : Output) (a b : String) :
    o.fits (a ++ b) = (o.fits a && (o.write a).fits b) := by
  unfold fits write
  cases o.room with
  | none => rfl
  | some n =>
    dsimp only
    rw [String.utf8ByteSize_append, ← Bool.decide_and, decide_eq_decide]
    omega

/-- Behind a text that does not fit there is no room. -/
theorem write_of_not_fits {a : String} (h : o.fits a = false) (b : String) :
    (o.write a).write b = o.write a := by
  obtain ⟨written, _ | n⟩ := o
  · cases h
  · have hfull : n - a.utf8ByteSize = 0 := by
      have := of_decide_eq_false h
      omega
    simp [write, hfull]

end Output

/-! ## Pieces of a line -/

namespace Run

/-- Write a text without a newline behind it. -/
def writePiece (text : String) : Run Unit := fun m =>
  if m.out.fits text then .ok () { m with out := m.out.write text }
  else .error (.failure .outputFull) { m with out := m.out.write text }

theorem writePiece_append (a b : String) :
    writePiece (a ++ b) = writePiece a >>= fun _ => writePiece b := by
  funext m
  show _ = EStateM.bind _ _ m
  unfold EStateM.bind writePiece
  rw [Output.fits_append, Output.write_append]
  cases h : m.out.fits a with
  | true => rfl
  | false =>
    rw [Output.write_of_not_fits h]
    rfl

/-- Pieces that are written one after the other, up to the first that does not fit, come to the same
as the whole text. -/
theorem forM_writePiece (pieces : List String) :
    pieces.forM writePiece = writePiece (String.join pieces) := by
  induction pieces with
  | nil =>
    funext m
    rw [String.join_nil]
    unfold writePiece
    rw [Output.write_empty, if_pos m.out.fits_empty]
    rfl
  | cons piece pieces ih =>
    rw [String.join_cons, writePiece_append, ← ih]
    rfl

theorem printLine_eq_writePiece (text : String) : printLine text = writePiece (text ++ "\n") :=
  funext (printLine_eq text)

end Run

/-! ## Runs -/

/-- The machine with an output that has room for `n` bytes in all. -/
def Machine.upTo (n : Nat) (m : Machine) : Machine :=
  { m with out := m.out.upTo n }

/-- An output without a limit stays one, and what was printed stays. -/
structure Appends (m m' : Machine) : Prop where
  room : m.out.room = none → m'.out.room = none
  prints : Prints m m'

theorem composes_appends : Composes Appends where
  refl m := ⟨id, composes_prints.refl m⟩
  trans h h' := ⟨h'.room ∘ h.room, composes_prints.trans h.prints h'.prints⟩

theorem Prints.size_le {m m' : Machine} (h : Prints m m') :
    m.out.written.size ≤ m'.out.written.size := by
  obtain ⟨printed, hprinted⟩ := h
  rw [hprinted, ByteArray.size_append]
  exact Nat.le_add_right _ _

/-- With room for `n` bytes in all, the run goes as it does without a limit if `n` bytes are enough.
If they are not, it fails, and by then they are used up. -/
structure Truncates {α : Type} (n : Nat) (x : Run α) : Prop where
  appends : x.Within Appends
  fits : ∀ m, m.out.room = none → (x.after m).out.written.size ≤ n →
    EndAlike (fun m m' => m' = m.upTo n) (x m) (x (m.upTo n))
  full : ∀ m, m.out.room = none → m.out.written.size ≤ n → n < (x.after m).out.written.size →
    ∃ scope, x (m.upTo n) = .error (.failure .outputFull) ⟨scope, (x.after m).out.upTo n⟩

section

variable {α β : Type} {n : Nat}

/-- A run that does not print goes alike on every output. -/
theorem truncates_of_silent {x : Run α} (hout : ∀ m, (x.after m).out = m.out)
    (hends : ∀ m, EndAlike (fun m m' => m' = m.upTo n) (x m) (x (m.upTo n))) :
    Truncates n x where
  appends m := ⟨fun hroom => (congrArg Output.room (hout m)).trans hroom, .empty, by
    rw [hout, ByteArray.append_empty]⟩
  fits m _ _ := hends m
  full m _ hle hlt := by
    rw [hout] at hlt
    omega

theorem truncates_pure (a : α) : Truncates n (pure a : Run α) :=
  truncates_of_silent (fun _ => rfl) fun _ => ⟨rfl, rfl⟩

theorem truncates_throw (e : EvalError) : Truncates n (throw e : Run α) :=
  truncates_of_silent (fun _ => rfl) fun _ => ⟨rfl, rfl⟩

theorem truncates_lookup (name : String) : Truncates n (Run.lookup name) :=
  truncates_of_silent (fun _ => rfl) fun _ => ⟨rfl, rfl⟩

theorem truncates_define (name : String) (v : Value) : Truncates n (Run.define name v) :=
  truncates_of_silent (fun _ => rfl) fun _ => ⟨rfl, rfl⟩

theorem truncates_printLine (text : String) : Truncates n (Run.printLine text) where
  appends m := by
    rw [Run.after_printLine]
    refine ⟨fun hroom => ?_, m.out.exists_write_written _⟩
    exact congrArg Output.room (Output.write_of_room_eq_none hroom _)
  fits m hroom hsize := by
    rw [Run.after_printLine] at hsize
    have hle : m.out.written.size ≤ n := by
      have := Output.size_write hroom (text ++ "\n")
      dsimp only at hsize
      omega
    have hfits : (m.upTo n).out.fits (text ++ "\n") := (Output.fits_upTo hroom hle _).2 hsize
    rw [Run.printLine_eq, Run.printLine_eq, if_pos (Output.fits_of_room_eq_none hroom _),
      if_pos hfits]
    exact ⟨rfl, congrArg (Machine.mk m.scope) (Output.write_upTo n hroom _)⟩
  full m hroom hle hlt := by
    rw [Run.after_printLine] at hlt ⊢
    have hfits : ¬(m.upTo n).out.fits (text ++ "\n") :=
      mt (Output.fits_upTo hroom hle _).1 (Nat.not_le.2 hlt)
    refine ⟨m.scope, ?_⟩
    rw [Run.printLine_eq, if_neg hfits, ← Output.write_upTo n hroom]
    rfl

/-- What comes behind a run only adds to what it has printed. -/
theorem prints_after_bind (x : Run α) {f : α → Run β} (hf : ∀ a, (f a).Within Appends)
    (m : Machine) : Prints (x.after m) ((x >>= f).after m) := by
  cases h : x m with
  | ok a m' =>
    rw [Run.after_of_ok h, Run.after_bind_of_ok h]
    exact (hf a m').prints
  | error e m' =>
    rw [Run.after_bind_of_error h]
    exact composes_prints.refl _

/-- Nothing comes behind a run that was cut short, and what would have come is past the limit. -/
theorem Truncates.bind {x : Run α} {f : α → Run β} (hx : Truncates n x)
    (hf : ∀ a, Truncates n (f a)) : Truncates n (x >>= f) where
  appends := composes_appends.within_bind hx.appends fun a => (hf a).appends
  fits m hroom hsize := by
    have hprints := prints_after_bind x (fun a => (hf a).appends) m
    have hroom' := (hx.appends m).room hroom
    obtain ⟨a, m₁, m₂, hm, hupTo, rfl⟩ | ⟨e, m₁, m₂, hm, hupTo, rfl⟩ :=
      (hx.fits m hroom (Nat.le_trans hprints.size_le hsize)).ok_or_error
    · rw [Run.after_bind_of_ok hm] at hsize
      rw [Run.after_of_ok hm] at hroom'
      rw [Run.bind_of_ok hm, Run.bind_of_ok hupTo]
      exact (hf a).fits m₁ hroom' hsize
    · rw [Run.bind_of_error hm, Run.bind_of_error hupTo]
      exact ⟨rfl, rfl⟩
  full m hroom hle hlt := by
    by_cases hsize : (x.after m).out.written.size ≤ n
    · have hroom' := (hx.appends m).room hroom
      obtain ⟨a, m₁, m₂, hm, hupTo, rfl⟩ | ⟨e, m₁, m₂, hm, hupTo, rfl⟩ :=
        (hx.fits m hroom hsize).ok_or_error
      · rw [Run.after_bind_of_ok hm] at hlt ⊢
        rw [Run.after_of_ok hm] at hroom' hsize
        rw [Run.bind_of_ok hupTo]
        exact (hf a).full m₁ hroom' hsize hlt
      · rw [Run.after_bind_of_error hm] at hlt
        omega
    · have hfull := Nat.not_le.1 hsize
      obtain ⟨printed, hprinted⟩ := prints_after_bind x (fun a => (hf a).appends) m
      obtain ⟨scope, hupTo⟩ := hx.full m hroom hle hfull
      rw [Run.bind_of_error hupTo, Output.upTo_of_le hprinted (Nat.le_of_lt hfull)]
      exact ⟨scope, rfl⟩

theorem Truncates.inFrame {body : Run Value} (h : Truncates n body) (frame : Bindings Value) :
    Truncates n (Run.inFrame frame body) where
  appends m := by
    have hbody := h.appends { m with scope := m.scope.push frame }
    rw [Run.after_inFrame]
    exact ⟨hbody.room, hbody.prints⟩
  fits m hroom hsize := by
    rw [Run.after_inFrame] at hsize
    obtain ⟨v, m₁, m₂, hm, hupTo, rfl⟩ | ⟨e, m₁, m₂, hm, hupTo, rfl⟩ :=
      (h.fits { m with scope := m.scope.push frame } hroom hsize).ok_or_error
    · rw [Run.inFrame_of_ok hm, Run.inFrame_of_ok (m := m.upTo n) hupTo]
      exact ⟨rfl, rfl⟩
    · rw [Run.inFrame_of_error hm, Run.inFrame_of_error (m := m.upTo n) hupTo]
      exact ⟨rfl, rfl⟩
  full m hroom hle hlt := by
    rw [Run.after_inFrame] at hlt ⊢
    obtain ⟨scope, hupTo⟩ := h.full { m with scope := m.scope.push frame } hroom hle hlt
    exact ⟨scope.pop, Run.inFrame_of_error (m := m.upTo n) hupTo⟩

theorem truncates_congruence (n : Nat) : Congruence fun _ x _ => Truncates n x where
  pure := truncates_pure
  throw := truncates_throw
  bind := Truncates.bind
  lookup := truncates_lookup
  printLine := truncates_printLine

theorem evalWithin_truncates (n limit room : Nat) (e : Expr) :
    Truncates n (e.evalWithin limit room) := by
  induction room generalizing e with
  | zero => exact truncates_throw _
  | succ room ih =>
    exact @Congruence.evalWithin_succ _ limit limit (truncates_congruence n) room room e
      (fun name v _ => truncates_define name v) (fun c _ => ih c) fun frame body =>
        (ih body).inFrame frame

theorem program_truncates (n limit : Nat) (p : Program) : Truncates n (Program.eval limit p) :=
  @Congruence.program _ limit limit (truncates_congruence n) (evalWithin_truncates n limit _) p

end

/-- An output with room for `n` bytes only truncates a run. If the run prints `n` bytes at most
where there is no limit, it ends there and here in the same value or error, with the same names
bound and the same bytes printed. Otherwise it fails because the output is full, and has printed the
first `n` of those bytes. Either way it makes no difference in which pieces a line is written. -/
theorem eval_limited (limit : Nat) (p : Program) (scope : Scope) (n : Nat) :
    let run := Program.eval limit p
    let printed := (run.after ⟨scope, .unbounded⟩).out.written
    (if printed.size ≤ n then
      EndAlike (fun m m' => m'.scope = m.scope ∧ m'.out.written = m.out.written)
        (run ⟨scope, .unbounded⟩) (run ⟨scope, .limited n⟩)
    else
      ∃ m, run ⟨scope, .limited n⟩ = .error (.failure .outputFull) m ∧
        m.out.written = printed.extract 0 n) ∧
    EvalError.Failure.text .outputFull = "failed to write output: sink full" ∧
    ∀ (v : Value) (pieces : List String), String.join pieces = v.render ++ "\n" →
      Run.printLine v.render = pieces.forM Run.writePiece := by
  intro run printed
  have htruncates : Truncates n run := program_truncates n limit p
  have hlimited : Machine.mk scope (.limited n) = Machine.upTo n ⟨scope, .unbounded⟩ :=
    congrArg (Machine.mk scope) (Output.upTo_unbounded n).symm
  refine ⟨?_, rfl, fun v pieces hpieces => ?_⟩
  · rw [hlimited]
    split
    · rename_i hsize
      have hends := htruncates.fits ⟨scope, .unbounded⟩ rfl hsize
      -- The bytes printed are few enough on the machine that the run leaves behind, which is the
      -- one that ends in the value or the error.
      have hwritten : (run.after ⟨scope, .unbounded⟩).out.written.size ≤ n := hsize
      obtain ⟨v, m, m', hm, hm', rfl⟩ | ⟨e, m, m', hm, hm', rfl⟩ := hends.ok_or_error
      · rw [Run.after_of_ok hm] at hwritten
        rw [hm, hm']
        exact ⟨rfl, rfl, Output.written_upTo hwritten⟩
      · rw [Run.after_of_error hm] at hwritten
        rw [hm, hm']
        exact ⟨rfl, rfl, Output.written_upTo hwritten⟩
    · rename_i hsize
      obtain ⟨scope', hfull⟩ :=
        htruncates.full ⟨scope, .unbounded⟩ rfl (Nat.zero_le n) (Nat.not_le.1 hsize)
      exact ⟨_, hfull, rfl⟩
  · rw [Run.forM_writePiece, hpieces, Run.printLine_eq_writePiece]

end PrefixLisp
