/-
# Occurrences

What a node refers to, and the nodes that occur in a pattern when it is read as a tree: a shared
node occurs once for every way to reach it.
-/

import RegexBuilder.Pattern.Node

namespace RegexBuilder

namespace CharacterSet

/-- The endpoints and members of a set. -/
def refs {α : Type} (s : CharacterSet α) : List α :=
  s.ranges.flatMap (fun r => [r.first, r.last]) ++ s.members ++
  s.subtractedRanges.flatMap (fun r => [r.first, r.last]) ++ s.subtractedMembers

end CharacterSet

/-- What the node refers to. -/
def Node.refs : Node → List Ref
  | leaf _ => []
  | set s => s.refs
  | concat children => children
  | alternation branches => branches
  | quantified _ child | group child | enclosed _ child | modified _ _ child => [child]
  | conditional _ expression yes no => [expression, yes, no]

namespace Graph

/-- The occurrences of nodes in a pattern, down to the given depth. -/
def occurrencesTo (g : Graph) : (depth : Nat) → Ref → List NodeId
  | 0, _ => []
  | _ + 1, none => []
  | depth + 1, some i =>
    match g.node? i with
    | none => []
    | some n => i :: n.refs.flatMap (g.occurrencesTo depth)

/-- The occurrences of nodes in a pattern; those of a pattern without cycles are all listed. -/
def occurrences (g : Graph) (r : Ref) : List NodeId := g.occurrencesTo g.size r

/-- The pattern shares no node with the first `old` nodes of the graph and none with itself,
wildcards apart. -/
def isDetached (g : Graph) (old : Nat) (r : Ref) : Bool :=
  let ids := (g.occurrences r).filter fun i => g.node? i ≠ some (.leaf .wildcard)
  ids.all (old ≤ ·) && ids.Nodup

end Graph
end RegexBuilder
