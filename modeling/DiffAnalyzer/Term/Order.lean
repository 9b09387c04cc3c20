import DiffAnalyzer.Term.Basic

/-!
# The order of arguments and terms

Literals come before terms.  Terms are compared by their heads and then by their
arguments from left to right, a shorter list first.
-/

namespace DiffAnalyzer

namespace Arg

mutual

def order : Arg → Arg → Ordering
  | .number x, .number y => compare x y
  | .number _, .node _ _ => .lt
  | .node _ _, .number _ => .gt
  | .node h s, .node k t => (compare h k).then (orderList s t)

def orderList : List Arg → List Arg → Ordering
  | [], [] => .eq
  | [], _ :: _ => .lt
  | _ :: _, [] => .gt
  | a :: s, b :: t => (order a b).then (orderList s t)

end

instance : Ord Arg := ⟨order⟩

end Arg

instance : Ord Term := ⟨fun s t => (compare s.head t.head).then (Arg.orderList s.tail t.tail)⟩

theorem Term.compare_eq (s t : Term) : compare s t = compare s.toArg t.toArg := by
  show _ = Arg.order s.toArg t.toArg
  rw [toArg, toArg, Arg.order]
  rfl

end DiffAnalyzer
