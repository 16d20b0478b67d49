import PrefixLisp.Proofs.Eval.Printing
import PrefixLisp.Proofs.Session.Parsing

/-
  Source texts run one by one and run as one text.

  A program with another one behind it runs like the first one and then, if that did not fail, the
  second one (`Program.eval_append`). Together with `Program.ofSource_newline` this says what a
  session does with two texts that have a newline between them (`Session.eval_newline`), and by
  induction what it does with any number of them (`eval_intercalate`).
-/

namespace PrefixLisp

theorem Program.eval_append {p q : Program} (hp : p ≠ []) (hq : q ≠ []) (limit : Nat) :
    Program.eval limit (p ++ q) = Program.eval limit p >>= fun _ => Program.eval limit q := by
  induction p with
  | nil => exact absurd rfl hp
  | cons e es ih =>
    cases es with
    | nil =>
      obtain ⟨e', q, rfl⟩ := List.exists_cons_of_ne_nil hq
      rfl
    | cons e' es =>
      have hrest := ih (List.cons_ne_nil e' es)
      show (e.eval limit >>= fun _ => Program.eval limit (e' :: es ++ q)) = _
      rw [hrest, ← bind_assoc]
      rfl

/-- The second program starts where the first one ends, if that ends in a value. -/
theorem Program.eval_append_apply {p q : Program} (hp : p ≠ []) (hq : q ≠ []) (limit : Nat)
    (m : Machine) :
    Program.eval limit (p ++ q) m =
      match Program.eval limit p m with
      | .ok _ m' => Program.eval limit q m'
      | .error e m' => .error e m' := by
  rw [eval_append hp hq]
  show EStateM.bind _ _ m = _
  unfold EStateM.bind
  cases Program.eval limit p m <;> rfl

namespace Session

/-- Run source texts one by one, each with an output of its own, up to the first that fails: its
outcome or that of the last text, the session behind it, and all that was printed. -/
def evalEach (s : Session) (first : String) : List String → Except Error Value × Session × ByteArray
  | [] =>
    match s.eval first .unbounded with
    | (r, s', out) => (r, s', out.written)
  | next :: rest =>
    match s.eval first .unbounded with
    | (.error e, s', out) => (.error e, s', out.written)
    | (.ok _, s', out) =>
      match s'.evalEach next rest with
      | (r, s'', printed) => (r, s'', out.written ++ printed)

theorem eval_config (s : Session) (source : String) (out : Output) :
    (s.eval source out).2.1.config = s.config := by
  unfold eval
  split
  · rfl
  · split <;> rfl

/-- Without a limit on the output, a text runs as on an empty output and prints behind what was
printed before. -/
theorem eval_unlimited (s : Session) (source : String) {out : Output} (hroom : out.room = none) :
    s.eval source out =
      match s.eval source .unbounded with
      | (r, s', o) => (r, s', ⟨out.written ++ o.written, none⟩) := by
  have hstart : out = ⟨out.written ++ Output.unbounded.written, none⟩ := by
    obtain ⟨written, room⟩ := out
    cases hroom
    exact congrArg (Output.mk · none) ByteArray.append_empty.symm
  unfold eval
  split
  · exact congrArg (_, _, ·) hstart
  · rename_i p _
    have hend := program_simulates (respected_prepends out.written) s.config.depthLimit p
      ⟨s.globals, out⟩ ⟨s.globals, .unbounded⟩ ⟨rfl, rfl, hstart⟩
    obtain ⟨v, m, n, hm, hn, hscope, _, hout⟩ | ⟨e, m, n, hm, hn, hscope, _, hout⟩ :=
      hend.ok_or_error
    · rw [hm, hn]
      dsimp only
      rw [hscope, hout]
    · rw [hm, hn]
      dsimp only
      rw [hscope, hout]

/-- Two texts with a newline between them run one behind the other. -/
theorem eval_newline {s : Session} {source more : String} {p q : Program}
    (hstrict : s.config.strict) (hp : s.parse source = .ok p) (hq : s.parse more = .ok q)
    (out : Output) :
    s.eval (source ++ "\n" ++ more) out =
      match s.eval source out with
      | (.error e, s', out') => (.error e, s', out')
      | (.ok _, s', out') => s'.eval more out' := by
  have hboth : s.parse (source ++ "\n" ++ more) = .ok (p ++ q) :=
    Program.ofSource_newline hstrict hp hq
  have hne := (Program.WellFormed.of_ofSource hp).ne_nil
  have hne' := (Program.WellFormed.of_ofSource hq).ne_nil
  unfold eval
  rw [hboth, hp]
  dsimp only
  rw [Program.eval_append_apply hne hne']
  cases Program.eval s.config.depthLimit p ⟨s.globals, out⟩ with
  | error e m => rfl
  | ok v m =>
    have hq' : parse { s with globals := m.scope } more = .ok q := hq
    dsimp only
    rw [hq']

/-- Texts that are programs are a program together. -/
theorem parse_intercalate {s : Session} (hstrict : s.config.strict) {first : String}
    {rest : List String} (h : ∀ source ∈ first :: rest, ∃ p, s.parse source = .ok p) :
    ∃ p, s.parse ("\n".intercalate (first :: rest)) = .ok p := by
  induction rest generalizing first with
  | nil =>
    rw [String.intercalate_singleton]
    exact h first List.mem_cons_self
  | cons next rest ih =>
    obtain ⟨p, hp⟩ := h first List.mem_cons_self
    obtain ⟨q, hq⟩ := ih fun source hsource => h source (List.mem_cons_of_mem _ hsource)
    rw [String.intercalate_cons_cons]
    exact ⟨p ++ q, Program.ofSource_newline hstrict hp hq⟩

end Session

/-- Running texts that are programs as one text, a newline between any two neighbours, has the
effect of running them one by one up to the first that fails. -/
theorem eval_intercalate (s : Session) (first : String) (rest : List String) (out : Output)
    (hstrict : s.config.strict = true)
    (hparse : ∀ source ∈ first :: rest, ∃ p, s.parse source = .ok p) (hroom : out.room = none) :
    s.eval ("\n".intercalate (first :: rest)) out =
      match s.evalEach first rest with
      | (r, s', printed) => (r, s', ⟨out.written ++ printed, none⟩) := by
  induction rest generalizing s first out with
  | nil =>
    rw [String.intercalate_singleton, s.eval_unlimited first hroom]
    rfl
  | cons next rest ih =>
    obtain ⟨p, hp⟩ := hparse first List.mem_cons_self
    have hparse' := fun source hsource => hparse source (List.mem_cons_of_mem first hsource)
    obtain ⟨q, hq⟩ := Session.parse_intercalate hstrict hparse'
    rw [String.intercalate_cons_cons, Session.eval_newline hstrict hp hq,
      s.eval_unlimited first hroom]
    have hconfig := s.eval_config first .unbounded
    unfold Session.evalEach
    generalize s.eval first .unbounded = result at hconfig ⊢
    obtain ⟨e | v, s', o⟩ := result
    · rfl
    · have hconfig : s'.config = s.config := hconfig
      have hstrict' : s'.config.strict = true := hconfig ▸ hstrict
      have hparse'' : ∀ source ∈ next :: rest, ∃ p, s'.parse source = .ok p := by
        unfold Session.parse at hparse' ⊢
        rwa [hconfig]
      dsimp only
      rw [ih s' next ⟨out.written ++ o.written, none⟩ hstrict' hparse'' rfl]
      dsimp only
      rw [ByteArray.append_assoc]

/-- A comment ends with its line, and what a line binds is there for the next one. -/
theorem eval_intercalate_comment :
    (Session.new {}).eval ("\n".intercalate ["(setq x 1) ; one", "(print (+ x 1))"]) .unbounded =
      match (Session.new {}).evalEach "(setq x 1) ; one" ["(print (+ x 1))"] with
      | (r, s', printed) => (r, s', ⟨.empty ++ printed, none⟩) := by
  have hok {r : Except Error Program} (h : r.isOk = true) : ∃ p, r = .ok p := by
    cases r with
    | ok p => exact ⟨p, rfl⟩
    | error e => cases h
  have hparse : ∀ source ∈ ["(setq x 1) ; one", "(print (+ x 1))"],
      ∃ p, (Session.new {}).parse source = .ok p := by
    intro source hsource
    rcases List.mem_pair.1 hsource with rfl | rfl
    · exact hok (by decide +kernel)
    · exact hok (by decide +kernel)
  exact eval_intercalate (Session.new {}) "(setq x 1) ; one" ["(print (+ x 1))"] .unbounded rfl
    hparse rfl

end PrefixLisp
