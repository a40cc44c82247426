/-
# Copying patterns

A copy consists of new nodes only and shares none of them: a node that occurs several times is
copied once per occurrence. Existing nodes stay as they are.
-/

import RegexBuilder.Pattern.Failure

namespace RegexBuilder

section

variable {M : Type → Type} [Monad M] [MonadExceptOf Failure M]

/-- A copy of a range, from copies of its endpoints. -/
def copyRange (endpoint : Ref → M Ref) (r : Range Ref) : M (Range Ref) := do
  let first ← endpoint r.first
  let last ← endpoint r.last
  return ⟨first, last⟩

/-- A copy of a set member, which must not be absent. -/
def copyMember (copy : Ref → M Ref) (r : Ref) : M Ref := do
  match ← copy r with
  | none => throw (.broken .member)
  | some i => return some i

/-- The node with copies in the place of what it refers to. -/
def Node.copy (endpoint copy : Ref → M Ref) : Node → M Node
  | leaf l => return leaf l
  | set s => do
    let members ← s.members.mapM (copyMember copy)
    let subtractedMembers ← s.subtractedMembers.mapM (copyMember copy)
    let ranges ← s.ranges.mapM (copyRange endpoint)
    let subtractedRanges ← s.subtractedRanges.mapM (copyRange endpoint)
    return set ⟨ranges, members, subtractedRanges, subtractedMembers, s.negated⟩
  | concat children => return concat (← children.mapM copy)
  | alternation branches => return alternation (← branches.mapM copy)
  | quantified b child => return quantified b (← copy child)
  | group child => return group (← copy child)
  | enclosed how child => return enclosed how (← copy child)
  | conditional c expression yes no => do
    let expression ← copy expression
    let yes ← copy yes
    let no ← copy no
    return conditional c expression yes no
  | modified on off child => return modified on off (← copy child)

end

/-- A computation that adds nodes to a graph. -/
abbrev Growing := StateT Graph (Except Failure)

/-- Adds a node and refers to it. -/
def Growing.add (n : Node) : Growing Ref := fun g => .ok (some (g.add n).1, (g.add n).2)

/-- A copy of a character that ends a range. -/
def copyEndpoint (g : Graph) (r : Ref) : Growing Ref :=
  match g.character? r with
  | some c => Growing.add (.leaf (.character c))
  | none => throw (.broken .endpoint)

namespace Graph

/-- A copy of what is referred to, made while the nodes of `o` are being copied: a new node, whose
own references are copied one level `deeper`. -/
def copyLevel (g : Graph) (deeper : List NodeId → Ref → Growing Ref) (o : List NodeId) :
    Ref → Growing Ref
  | none => return none
  | some i =>
    match g.node? i with
    | none => return none
    | some n => do
      if i ∈ o then
        throw (.recursion .copy (o ++ [i]))
      Growing.add (← n.copy (copyEndpoint g) (deeper (o ++ [i])))

/-- A copy of what is referred to, at most `depth` levels deep. -/
def copying (g : Graph) : (depth : Nat) → List NodeId → Ref → Growing Ref
  | 0 => fun _ _ _ => throw .exhausted
  | depth + 1 => g.copyLevel (g.copying depth)

/-- A copy of the pattern, in the graph that the copy was added to. -/
def copy (g : Graph) (r : Ref) : Except Failure (Ref × Graph) :=
  (g.copying (g.size + 1) [] r).run g

end Graph
end RegexBuilder
