import PrefixLisp.Console
import PrefixLisp.Proofs.Session.Invariant

/-
  Console lines that look at a session.

  An empty line, the commands for help and for the bindings, and the command that shows how a text
  reads do nothing to the session. They can be put in and taken out anywhere, and what is shown for
  all other lines is the same, and so is the session at the end (`inspection_changes_nothing`). The
  session behind some lines is the one behind the source texts among them (`exchange_snd`).

  Which lines these are is said of their text (`Inspects`, `Quits`), and `Command.ofLine` recognises
  them as such. A line that does not quit is answered on the session as it is, and the lines behind
  it on the session that this leaves (`exchange_cons`).
-/

namespace PrefixLisp.Console

/-! ## Lines -/

/-- The line, without the blanks around it, is empty, asks for help or for the bindings, or asks how
a text reads. -/
def Inspects (line : String) : Prop :=
  Text.trim line ∈ ["", ":help", ":env"] ∨ parseCommand.toList <+: (Text.trim line).toList

def Quits (line : String) : Prop :=
  Text.trim line ∈ [":quit", ":exit", "(quit)"]

instance : DecidablePred Inspects :=
  fun _ => inferInstanceAs (Decidable (_ ∨ _))

instance : DecidablePred Quits :=
  fun _ => inferInstanceAs (Decidable (_ ∈ _))

variable {line : String}

theorem Inspects.not_quits (h : Inspects line) : ¬Quits line := by
  intro hquits
  have hall : ∀ text ∈ [":quit", ":exit", "(quit)"],
      ¬(text ∈ ["", ":help", ":env"] ∨ parseCommand.toList <+: text.toList) := by decide
  exact hall _ hquits h

namespace Command

theorem ofLine_of_quits (h : Quits line) : ofLine line = .quit := by
  have hall : ∀ text ∈ [":quit", ":exit", "(quit)"], text ∉ ["", ":help", ":env"] := by decide
  have hother := hall _ h
  simp only [List.mem_cons, List.not_mem_nil, or_false, not_or] at hother
  unfold ofLine
  dsimp only
  rw [if_neg hother.1, if_neg hother.2.1, if_neg hother.2.2]
  exact if_pos h

theorem ofLine_ne_quit (h : ¬Quits line) : ofLine line ≠ .quit := by
  unfold ofLine
  dsimp only
  rw [if_neg (show ¬Text.trim line ∈ _ from h)]
  split
  · exact nofun
  split
  · exact nofun
  split
  · exact nofun
  split <;> exact nofun

/-- A line that neither looks nor quits is a source text. -/
theorem ofLine_eq_run (hinspects : ¬Inspects line) (hquits : ¬Quits line) :
    ofLine line = .run (Text.trim line) := by
  obtain ⟨hother, hparse⟩ := not_or.1 hinspects
  simp only [List.mem_cons, List.not_mem_nil, or_false, not_or] at hother
  unfold ofLine
  dsimp only
  rw [if_neg hother.1, if_neg hother.2.1, if_neg hother.2.2,
    if_neg (show ¬Text.trim line ∈ _ from hquits), if_neg]
  rwa [List.isPrefixOf_iff_prefix]

theorem ofLine_ne_run (h : Inspects line) (source : String) : ofLine line ≠ .run source := by
  unfold ofLine
  dsimp only
  split
  · exact nofun
  split
  · exact nofun
  split
  · exact nofun
  split
  · exact nofun
  rename_i hnothing hhelp henv _
  have hparse := h.resolve_left (by simp [hnothing, hhelp, henv])
  rw [if_pos (List.isPrefixOf_iff_prefix.2 hparse)]
  exact nofun

/-- Only a source text changes the session. -/
theorem reply_snd {c : Command} (h : ∀ source, c ≠ .run source) (s : Session) :
    (c.reply s).2 = s := by
  cases c with
  | parse source =>
    unfold reply
    dsimp only
    split <;> rfl
  | run source => exact absurd rfl (h source)
  | _ => rfl

end Command

/-! ## Exchanges -/

variable {lines : List String}

theorem exchange_of_quits (h : Quits line) (s : Session) :
    exchange s (line :: lines) = ([], s) := by
  rw [exchange, Command.ofLine_of_quits h]

theorem exchange_cons (h : ¬Quits line) (s : Session) :
    let answered := (Command.ofLine line).reply s
    let rest := exchange answered.2 lines
    exchange s (line :: lines) = ((Command.ofLine line, answered.1) :: rest.1, rest.2) := by
  rw [exchange]
  split
  · exact absurd ‹_› (Command.ofLine_ne_quit h)
  · rfl

theorem exchange_of_inspects (h : Inspects line) (s : Session) :
    exchange s (line :: lines) =
      ((Command.ofLine line, ((Command.ofLine line).reply s).1) :: (exchange s lines).1,
        (exchange s lines).2) := by
  rw [exchange_cons h.not_quits, Command.reply_snd (Command.ofLine_ne_run h)]

/-- The source texts among the lines, up to the first one that quits. -/
def sources (lines : List String) : List String :=
  ((lines.takeWhile (¬Quits ·)).filter (¬Inspects ·)).map Text.trim

/-- The session behind the lines is the one that has run the source texts among them. -/
theorem exchange_snd (s : Session) (lines : List String) :
    (exchange s lines).2 = s.after ((sources lines).map (·, .unbounded)) := by
  induction lines generalizing s with
  | nil => rfl
  | cons line lines ih =>
    by_cases hquits : Quits line
    · rw [exchange_of_quits hquits]
      simp [sources, hquits, Session.after]
    by_cases hinspects : Inspects line
    · rw [exchange_of_inspects hinspects]
      simpa [sources, hquits, hinspects] using ih s
    · rw [exchange_cons hquits, Command.ofLine_eq_run hinspects hquits]
      have hrun : ((Command.run (Text.trim line)).reply s).2 =
          (s.eval (Text.trim line) .unbounded).2.1 := by
        unfold Command.reply
        dsimp only
        split <;> simp [*]
      simpa [sources, hquits, hinspects, Session.after, hrun] using ih _

/-- Behind lines of which none quits, the exchange goes on from the session that they leave. -/
theorem exchange_append {earlier : List String} (h : ∀ line ∈ earlier, ¬Quits line) (s : Session)
    (later : List String) :
    let before := exchange s earlier
    let rest := exchange before.2 later
    exchange s (earlier ++ later) = (before.1 ++ rest.1, rest.2) := by
  induction earlier generalizing s with
  | nil => rfl
  | cons line earlier ih =>
    obtain ⟨hline, hearlier⟩ := List.forall_mem_cons.1 h
    dsimp only
    rw [List.cons_append, exchange_cons hline, exchange_cons hline, ih hearlier]
    rfl

theorem exchange_append_of_quits {earlier : List String} (h : ∃ line ∈ earlier, Quits line)
    (s : Session) (later : List String) :
    exchange s (earlier ++ later) = exchange s earlier := by
  induction earlier generalizing s with
  | nil => simp at h
  | cons line earlier ih =>
    rw [List.cons_append]
    by_cases hline : Quits line
    · rw [exchange_of_quits hline, exchange_of_quits hline]
    · have hearlier : ∃ line ∈ earlier, Quits line := by simpa [hline] using h
      rw [exchange_cons hline, exchange_cons hline, ih hearlier]

/-! ## Lines put in and taken out -/

/-- What becomes of a line from one version of the input to another. -/
inductive Edit where
  | keep
  | insert
  | delete
deriving DecidableEq, Inhabited

/-- A version of the input. What is inserted is not in the older one, and what is deleted is not in
the newer one. -/
def without (edit : Edit) (script : List (Edit × String)) : List (Edit × String) :=
  script.filter (·.1 ≠ edit)

/-- The commands in the lines that are kept, each with what is shown for it, when all the lines of
this version are the input. -/
def shownForKept (s : Session) (version : List (Edit × String)) : List (Command × String) :=
  ((version.zip (exchange s (version.map (·.2))).1).filter (·.1.1 = .keep)).map (·.2)

variable {version : List (Edit × String)}

/-- The lines that are not kept can be left out. -/
theorem exchange_kept (h : ∀ step ∈ version, step.1 ≠ .keep → Inspects step.2) (s : Session) :
    let kept := version.filter (·.1 = .keep)
    shownForKept s version = shownForKept s kept ∧
      (exchange s (version.map (·.2))).2 = (exchange s (kept.map (·.2))).2 := by
  induction version generalizing s with
  | nil => exact ⟨rfl, rfl⟩
  | cons step version ih =>
    obtain ⟨hstep, hversion⟩ := List.forall_mem_cons.1 h
    by_cases hkeep : step.1 = .keep
    · by_cases hquits : Quits step.2
      · simp [shownForKept, hkeep, exchange_of_quits hquits]
      · have ⟨hshown, hsession⟩ := ih hversion ((Command.ofLine step.2).reply s).2
        simpa [shownForKept, hkeep, exchange_cons hquits] using And.intro hshown hsession
    · have hinspects := hstep hkeep
      simpa [shownForKept, hkeep, exchange_of_inspects hinspects] using ih hversion s

theorem filter_keep_without {edit : Edit} (h : edit ≠ .keep) (script : List (Edit × String)) :
    (without edit script).filter (·.1 = .keep) = script.filter (·.1 = .keep) := by
  unfold without
  rw [List.filter_filter]
  refine List.filter_congr fun step _ => ?_
  by_cases hkeep : step.1 = .keep <;> simp [hkeep, h.symm]

/-- A version of the input shows for the kept lines what they show when they are all there is. -/
theorem exchange_without {edit : Edit} (hedit : edit ≠ .keep) {script : List (Edit × String)}
    (h : ∀ step ∈ script, step.1 ≠ .keep → Inspects step.2) (s : Session) :
    let kept := script.filter (·.1 = .keep)
    shownForKept s (without edit script) = shownForKept s kept ∧
      (exchange s ((without edit script).map (·.2))).2 = (exchange s (kept.map (·.2))).2 := by
  have hversion : ∀ step ∈ without edit script, step.1 ≠ .keep → Inspects step.2 :=
    fun step hstep => h step (List.mem_of_mem_filter hstep)
  have hkept := exchange_kept hversion s
  rwa [filter_keep_without hedit] at hkept

/-- Lines that look can be put into the input of the console and taken out of it wherever one likes:
what is shown for each of the other lines is the same, and so is the session at the end. Behind any
lines, the session is the one that has run the source texts among them, up to the first line that
quits; the lines that come then are answered on this session, or not at all if one has quit. -/
theorem inspection_changes_nothing (s : Session) (script : List (Edit × String))
    (h : ∀ step ∈ script, step.1 ≠ .keep → Inspects step.2) :
    let old := without .insert script
    let new := without .delete script
    shownForKept s old = shownForKept s new ∧
      (exchange s (old.map (·.2))).2 = (exchange s (new.map (·.2))).2 ∧
        ∀ earlier later : List String,
          let s' := s.after ((sources earlier).map (·, .unbounded))
          (exchange s earlier).2 = s' ∧
            ((∀ line ∈ earlier, ¬Quits line) → exchange s (earlier ++ later) =
              ((exchange s earlier).1 ++ (exchange s' later).1, (exchange s' later).2)) ∧
            ((∃ line ∈ earlier, Quits line) →
              exchange s (earlier ++ later) = exchange s earlier) := by
  obtain ⟨holdShown, holdSession⟩ := exchange_without (show Edit.insert ≠ .keep from nofun) h s
  obtain ⟨hnewShown, hnewSession⟩ := exchange_without (show Edit.delete ≠ .keep from nofun) h s
  refine ⟨holdShown.trans hnewShown.symm, holdSession.trans hnewSession.symm, ?_⟩
  intro earlier later
  dsimp only
  rw [← exchange_snd]
  exact ⟨rfl, fun hlines => exchange_append hlines s later,
    fun hquits => exchange_append_of_quits hquits s later⟩

/-- A definition, then a line that cannot be read, then a look at the bindings; to be more or less
inspected on the way. -/
theorem inspection_changes_nothing_setq :
    let script : List (Edit × String) :=
      [(.keep, "(setq x 2)"), (.insert, " :env "), (.keep, "(print x"), (.delete, ":parse (f 1 2)"),
        (.keep, ":env"), (.insert, "")]
    (∀ step ∈ script, step.1 ≠ .keep → Inspects step.2) ∧
      shownForKept (.new {}) (without .insert script) =
        shownForKept (.new {}) (without .delete script) ∧
      (exchange (.new {}) ((without .insert script).map (·.2))).2 =
        (exchange (.new {}) ((without .delete script).map (·.2))).2 := by
  have h : ∀ step ∈ ([(.keep, "(setq x 2)"), (.insert, " :env "), (.keep, "(print x"),
      (.delete, ":parse (f 1 2)"), (.keep, ":env"), (.insert, "")] : List (Edit × String)),
      step.1 ≠ .keep → Inspects step.2 := by decide
  obtain ⟨hshown, hsession, _⟩ := inspection_changes_nothing (.new {}) _ h
  exact ⟨h, hshown, hsession⟩

end PrefixLisp.Console
