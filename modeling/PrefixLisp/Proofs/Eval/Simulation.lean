import PrefixLisp.Proofs.Eval.Congruence

/-
  Runs that go alike.

  `Simulates R x y` relates two computations, maybe on different kinds of state: from states
  that `R` relates, both end in the same value or the same error, and again in states that `R`
  relates. It passes through sequencing (`Simulates.bind`, `simulates_mapM`).

  The evaluator reaches its machine through four operations only. A relation between machines
  that all four respect is kept by whole evaluations (`evalWithin_simulates`) and by whole programs
  (`program_simulates`).
-/

namespace PrefixLisp

section

variable {ε σ τ α β : Type}

/-- The same value or the same error, and states that `R` relates. -/
def EndAlike (R : σ → τ → Prop) : EStateM.Result ε σ α → EStateM.Result ε τ α → Prop
  | .ok a s, .ok b t => a = b ∧ R s t
  | .error e s, .error d t => e = d ∧ R s t
  | _, _ => False

/-- Either both end in the same value or both in the same error. -/
theorem EndAlike.ok_or_error {R : σ → τ → Prop} {r : EStateM.Result ε σ α}
    {q : EStateM.Result ε τ α} (h : EndAlike R r q) :
    (∃ a s t, r = .ok a s ∧ q = .ok a t ∧ R s t) ∨
      ∃ e s t, r = .error e s ∧ q = .error e t ∧ R s t := by
  cases r with
  | ok a s =>
    cases q with
    | ok b t => exact .inl ⟨a, s, t, rfl, by rw [h.1], h.2⟩
    | error d t => exact h.elim
  | error e s =>
    cases q with
    | ok b t => exact h.elim
    | error d t => exact .inr ⟨e, s, t, rfl, by rw [h.1], h.2⟩

theorem EndAlike.mono {R S : σ → τ → Prop} {r : EStateM.Result ε σ α} {q : EStateM.Result ε τ α}
    (h : EndAlike R r q) (hRS : ∀ s t, R s t → S s t) : EndAlike S r q := by
  obtain ⟨a, s, t, rfl, rfl, hst⟩ | ⟨e, s, t, rfl, rfl, hst⟩ := h.ok_or_error
  · exact ⟨rfl, hRS s t hst⟩
  · exact ⟨rfl, hRS s t hst⟩

/-- From related states the computations end alike. -/
def Simulates (R : σ → τ → Prop) (x : EStateM ε σ α) (y : EStateM ε τ α) : Prop :=
  ∀ s t, R s t → EndAlike R (x s) (y t)

variable {R : σ → τ → Prop}

theorem simulates_pure (a : α) :
    Simulates R (pure a : EStateM ε σ α) (pure a : EStateM ε τ α) :=
  fun _ _ h => ⟨rfl, h⟩

theorem simulates_throw (e : ε) :
    Simulates R (throw e : EStateM ε σ α) (throw e : EStateM ε τ α) :=
  fun _ _ h => ⟨rfl, h⟩

theorem Simulates.bind {x : EStateM ε σ α} {y : EStateM ε τ α} {f : α → EStateM ε σ β}
    {g : α → EStateM ε τ β} (hxy : Simulates R x y) (hfg : ∀ a, Simulates R (f a) (g a)) :
    Simulates R (x >>= f) (y >>= g) := by
  intro s t h
  show EndAlike R (EStateM.bind x f s) (EStateM.bind y g t)
  unfold EStateM.bind
  obtain ⟨a, s₁, t₁, hx, hy, h₁⟩ | ⟨e, s₁, t₁, hx, hy, h₁⟩ := (hxy s t h).ok_or_error
  · rw [hx, hy]
    exact hfg a s₁ t₁ h₁
  · rw [hx, hy]
    exact ⟨rfl, h₁⟩

theorem simulates_mapM {ι : Type} {f : ι → EStateM ε σ α} {g : ι → EStateM ε τ α} {xs : List ι}
    (h : ∀ x ∈ xs, Simulates R (f x) (g x)) : Simulates R (xs.mapM f) (xs.mapM g) := by
  induction xs with
  | nil => exact simulates_pure []
  | cons x xs ih =>
    rw [List.mapM_cons, List.mapM_cons]
    obtain ⟨hx, hxs⟩ := List.forall_mem_cons.1 h
    exact hx.bind fun a => (ih hxs).bind fun as => simulates_pure (a :: as)

end

theorem Run.printLine_eq (text : String) (m : Machine) :
    Run.printLine text m =
      if m.out.fits (text ++ "\n") then .ok () { m with out := m.out.write (text ++ "\n") }
      else .error (.failure .outputFull) { m with out := m.out.write (text ++ "\n") } := by
  show (if m.out.fits (text ++ "\n") then (pure () : Run Unit) else throw (.failure .outputFull))
    { m with out := m.out.write (text ++ "\n") } = _
  split <;> rfl

/-! ## The evaluator beside itself -/

/-- The relation survives whatever a run does to its machine. -/
structure Respected (R : Machine → Machine → Prop) : Prop where
  get? : ∀ {m n}, R m n → ∀ name, m.scope.get? name = n.scope.get? name
  define : ∀ {m n}, R m n → ∀ name v,
    R { m with scope := m.scope.define name v } { n with scope := n.scope.define name v }
  push : ∀ {m n}, R m n → ∀ frame,
    R { m with scope := m.scope.push frame } { n with scope := n.scope.push frame }
  pop : ∀ {m n}, R m n → R { m with scope := m.scope.pop } { n with scope := n.scope.pop }
  printLine : ∀ text, Simulates R (Run.printLine text) (Run.printLine text)

section

variable {R : Machine → Machine → Prop} {limit : Nat}

theorem Respected.lookup (hR : Respected R) (name : String) :
    Simulates R (Run.lookup name) (Run.lookup name) :=
  fun _ _ h => ⟨hR.get? h name, h⟩

theorem Respected.simulates_define (hR : Respected R) (name : String) (v : Value) :
    Simulates R (Run.define name v) (Run.define name v) :=
  fun _ _ h => ⟨rfl, hR.define h name v⟩

theorem Respected.inFrame (hR : Respected R) (frame : Bindings Value) {x : Run Value}
    (hx : Simulates R x x) : Simulates R (Run.inFrame frame x) (Run.inFrame frame x) := by
  intro m n h
  unfold Run.inFrame
  obtain ⟨a, m₁, n₁, hm, hn, h₁⟩ | ⟨e, m₁, n₁, hm, hn, h₁⟩ :=
    (hx _ _ (hR.push h frame)).ok_or_error
  · rw [hm, hn]
    exact ⟨rfl, hR.pop h₁⟩
  · rw [hm, hn]
    exact ⟨rfl, hR.pop h₁⟩

theorem Respected.congruence (hR : Respected R) : Congruence fun _ x y => Simulates R x y where
  pure := simulates_pure
  throw := simulates_throw
  bind := Simulates.bind
  lookup := hR.lookup
  printLine := hR.printLine

theorem evalWithin_simulates (hR : Respected R) (room : Nat) (e : Expr) :
    Simulates R (e.evalWithin limit room) (e.evalWithin limit room) := by
  induction room generalizing e with
  | zero => exact simulates_throw _
  | succ room ih =>
    exact hR.congruence.evalWithin_succ (fun name v _ => hR.simulates_define name v)
      (fun c _ => ih c) fun frame body => hR.inFrame frame (ih body)

theorem program_simulates (hR : Respected R) (limit : Nat) (p : Program) :
    Simulates R (Program.eval limit p) (Program.eval limit p) :=
  hR.congruence.program (evalWithin_simulates hR _) p

end

end PrefixLisp
