import PolicyTree.Tree

namespace PolicyTree

/-- The order of two doubles; a NaN has no place in it. -/
def compareDouble? (a b : Float) : Option Ordering :=
  if a < b then some .lt
  else if b < a then some .gt
  else if a == b then some .eq
  else none

/-- The order of two values of one kind. Policies are ordered by the number of their top-level
names; file references and undefined values have no order. -/
def Value.compare? : Value → Value → Option Ordering
  | .bool a, .bool b => some (compare a b)
  | .int a, .int b => some (compare a b)
  | .double a, .double b => compareDouble? a b
  | .string a, .string b => some (compare a b)
  | .policy p, .policy q => some (compare p.entries.length q.entries.length)
  | _, _ => none

end PolicyTree
