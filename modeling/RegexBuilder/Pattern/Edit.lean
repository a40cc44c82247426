/-
# Changing nodes

Each change puts another node in the place of one that has what is to be changed; any other node is
a fault. Whoever refers to the node sees the change.
-/

import RegexBuilder.Pattern.Failure
import RegexBuilder.Pattern.RangeMerge

namespace RegexBuilder

/-- What can be changed in a node. -/
inductive Edit where
  | addChildren (children : List Ref)
  | setText (text : Text)
  | makeLazy
  | setBounds (min max : Int)
  | setChild (child : Ref)
  | setExpression (r : Ref)
  | setYes (r : Ref)
  | setNo (r : Ref)
  | addRanges (ranges : List (Range Ref))
  | addMembers (members : List Ref)
  | subtractRanges (ranges : List (Range Ref))
  | subtractMembers (members : List Ref)
  | negate
  | fuseRanges
  | fuseSubtracted

namespace Graph

/-- The character that ends a range, with its node. -/
def endpoint? (g : Graph) (r : Ref) : Option (NodeId × Character) := do
  let i ← r
  let c ← g.character? r
  pure (i, c)

/-- The ranges, fused where they overlap or touch. A range without an endpoint is a fault. -/
def mergeRanges (g : Graph) (ranges : List (Range Ref)) : Except Fault (List (Range Ref)) :=
  match ranges.mapM fun r => r.mapM? g.endpoint? with
  | none => .error .endpoint
  | some rs => .ok <| (Range.merge (fun e => e.2.value) rs).map fun f =>
      ⟨f.first.map (·.1), some f.last.1⟩

end Graph

namespace Edit

/-- The changed node. -/
def apply (g : Graph) : Edit → Node → Except Fault Node
  | addChildren more, .concat children => .ok (.concat (children ++ more))
  | addChildren more, .alternation branches => .ok (.alternation (branches ++ more))
  | setText text, .leaf (.literal _) => .ok (.leaf (.literal text))
  | makeLazy, .quantified b child => .ok (.quantified { b with greedy := false } child)
  | setBounds min max, .quantified b child => .ok (.quantified ⟨min, max, b.greedy⟩ child)
  | setChild child, .quantified b _ => .ok (.quantified b child)
  | setChild child, .group _ => .ok (.group child)
  | setChild child, .enclosed how _ => .ok (.enclosed how child)
  | setChild child, .modified on off _ => .ok (.modified on off child)
  | setExpression r, .conditional c _ yes no => .ok (.conditional c r yes no)
  | setYes r, .conditional c e _ no => .ok (.conditional c e r no)
  | setNo r, .conditional c e yes _ => .ok (.conditional c e yes r)
  | addRanges more, .set s => .ok (.set { s with ranges := s.ranges ++ more })
  | addMembers more, .set s => .ok (.set { s with members := s.members ++ more })
  | subtractRanges more, .set s =>
    .ok (.set { s with subtractedRanges := s.subtractedRanges ++ more })
  | subtractMembers more, .set s =>
    .ok (.set { s with subtractedMembers := s.subtractedMembers ++ more })
  | negate, .set s => .ok (.set { s with negated := !s.negated })
  | fuseRanges, .set s => do
    return .set { s with ranges := ← g.mergeRanges s.ranges }
  | fuseSubtracted, .set s => do
    return .set { s with subtractedRanges := ← g.mergeRanges s.subtractedRanges }
  | _, _ => .error .change

/-- Fuses the ranges that a set includes, then those that it subtracts. -/
def mergeRanges : List Edit := [fuseRanges, fuseSubtracted]

end Edit

namespace Graph

/-- The graph in which node `i` is changed. -/
def edit (g : Graph) (i : NodeId) (e : Edit) : Except Fault Graph :=
  match g.node? i with
  | none => .error .change
  | some n => (e.apply g n).map (g.put i)

/-- The graph in which node `i` is changed step by step, up to a step that has a fault. -/
def edits (g : Graph) (i : NodeId) : List Edit → Graph × Option Fault
  | [] => (g, none)
  | e :: rest =>
    match g.edit i e with
    | .ok g => g.edits i rest
    | .error fault => (g, some fault)

end Graph
end RegexBuilder
