import PrefixLisp.Proofs.Eval.Simulation

/-
  What a run prints.

  On an output without a limit, a run does not depend on what was printed before it, and it prints
  behind that. The machines that differ by what was printed before are related by `Prepends`, and
  everything that the evaluator does to its machine respects this relation (`respected_prepends`).
-/

namespace PrefixLisp

namespace Output

variable {o : Output}

theorem fits_of_room_eq_none (h : o.room = none) (text : String) : o.fits text = true := by
  unfold fits
  rw [h]

theorem write_of_room_eq_none (h : o.room = none) (text : String) :
    o.write text = ⟨o.written ++ text.toUTF8, none⟩ := by
  obtain ⟨written, room⟩ := o
  cases h
  rfl

end Output

/-- The machine `m` is `n` with `before` printed ahead of all else; their outputs have no limit. -/
def Prepends (before : ByteArray) (m n : Machine) : Prop :=
  m.scope = n.scope ∧ n.out.room = none ∧ m.out = ⟨before ++ n.out.written, none⟩

theorem simulates_printLine_prepends (before : ByteArray) (text : String) :
    Simulates (Prepends before) (Run.printLine text) (Run.printLine text) := by
  intro m n ⟨hscope, hroom, hout⟩
  have hroom' : m.out.room = none := by rw [hout]
  rw [Run.printLine_eq, Run.printLine_eq, if_pos (Output.fits_of_room_eq_none hroom' _),
    if_pos (Output.fits_of_room_eq_none hroom _), Output.write_of_room_eq_none hroom',
    Output.write_of_room_eq_none hroom]
  refine ⟨rfl, hscope, rfl, ?_⟩
  rw [hout, ByteArray.append_assoc]

theorem respected_prepends (before : ByteArray) : Respected (Prepends before) where
  get? h name := by rw [h.1]
  define h name v := ⟨congrArg (·.define name v) h.1, h.2⟩
  push h frame := ⟨congrArg (·.push frame) h.1, h.2⟩
  pop h := ⟨congrArg Scope.pop h.1, h.2⟩
  printLine := simulates_printLine_prepends before

end PrefixLisp
