import PrefixLisp.Bindings
import PrefixLisp.Value.Basic

/-
  The names that a running expression sees: a chain of frames, innermost first. A binding is
  made in the innermost frame, and a look-up walks outwards. A call pushes a frame for its
  parameters and pops it when it ends.
-/

namespace PrefixLisp

structure Scope where
  top : Bindings Value
  outer : List (Bindings Value)
deriving Inhabited

namespace Scope

def empty : Scope := ⟨.empty, []⟩

def define (s : Scope) (name : String) (v : Value) : Scope :=
  { s with top := s.top.insert name v }

/-- The scope in which programs start: `nil` is bound, nothing else. -/
def global : Scope := empty.define "nil" .nil

/-- All frames, innermost first. -/
def frames (s : Scope) : List (Bindings Value) :=
  s.top :: s.outer

def get? (s : Scope) (name : String) : Option Value :=
  s.frames.findSome? (·.get? name)

def push (s : Scope) (frame : Bindings Value) : Scope :=
  ⟨frame, s.frames⟩

/-- Drop the innermost frame; the outermost one stays. -/
def pop (s : Scope) : Scope :=
  match s.outer with
  | [] => s
  | top :: outer => ⟨top, outer⟩

/-- How many frames stand around the innermost one. -/
def depth (s : Scope) : Nat :=
  s.outer.length

/-- What each name that is bound at all looks up to. -/
def visible (s : Scope) : Bindings Value :=
  s.frames.foldr .overlay .empty

end Scope

end PrefixLisp
