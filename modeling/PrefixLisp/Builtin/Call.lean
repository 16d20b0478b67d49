import PrefixLisp.Value.Sequence

/-
  Calling a builtin: the number of arguments is settled first, then the kinds of the index
  arguments from left to right, then the list.
-/

namespace PrefixLisp.Builtin

def call : Builtin → List Value → Except EvalError Value
  | list, items => .ok (.list items)
  | head, [xs] => xs.head
  | tail, [xs] => xs.tail
  | append, [xs, item] => xs.append item
  | splice, [xs, start, stop] => do
    let start ← start.index .splice
    let stop ← stop.index .splice
    xs.splice start stop
  | length, [xs] => xs.length
  | nth, [xs, i] => do
    let i ← i.index .nth
    xs.nth i
  | b, args => .error (.arity b.name b.arity args.length)

end PrefixLisp.Builtin
