/-
# Trees of new nodes

A tree says which nodes are to be added to a graph; its leaves may be nodes that exist already.
`Tree.plant` adds the nodes, children before their parents. The constructors with a check stand
here, too.
-/

import RegexBuilder.Text.DecimalDigit
import RegexBuilder.Text.Letter
import RegexBuilder.Pattern.Node

namespace RegexBuilder

/-- A member of a set or an endpoint of a range: a node that exists already, or a new leaf. -/
inductive Element where
  | existing (r : Ref)
  | fresh (l : Leaf)

/-- A pattern of new nodes above existing ones. -/
inductive Tree where
  | existing (r : Ref)
  | leaf (l : Leaf)
  | set (s : CharacterSet Element)
  | concat (children : List Tree)
  | alternation (branches : List Tree)
  | quantified (bounds : Bounds) (child : Tree)
  | group (child : Tree)
  | enclosed (how : Enclosure) (child : Tree)
  | conditional (condition : Condition) (expression yes no : Tree)
  | modified (on off : Options) (child : Tree)

/-- A computation that adds nodes to a graph and cannot fail. -/
abbrev Planting := StateM Graph

namespace Planting

/-- Adds a node and refers to it. -/
def add (n : Node) : Planting Ref := fun g => (some (g.add n).1, (g.add n).2)

end Planting

namespace Element

/-- Adds the leaf, if it is new. -/
def plant : Element → Planting Ref
  | existing r => return r
  | fresh l => Planting.add (.leaf l)

/-- Adds the new endpoints of a range. -/
def plantRange (r : Range Element) : Planting (Range Ref) := do
  let first ← r.first.plant
  let last ← r.last.plant
  return ⟨first, last⟩

/-- Adds the new elements of a set. -/
def plantSet (s : CharacterSet Element) : Planting (CharacterSet Ref) := do
  let ranges ← s.ranges.mapM plantRange
  let members ← s.members.mapM plant
  let subtractedRanges ← s.subtractedRanges.mapM plantRange
  let subtractedMembers ← s.subtractedMembers.mapM plant
  return ⟨ranges, members, subtractedRanges, subtractedMembers, s.negated⟩

end Element

namespace Tree

mutual

/-- Adds the nodes of the tree and refers to its root. -/
def plant : Tree → Planting Ref
  | existing r => return r
  | leaf l => Planting.add (.leaf l)
  | set s => do Planting.add (.set (← Element.plantSet s))
  | concat children => do Planting.add (.concat (← plantAll children))
  | alternation branches => do Planting.add (.alternation (← plantAll branches))
  | quantified b child => do Planting.add (.quantified b (← plant child))
  | group child => do Planting.add (.group (← plant child))
  | enclosed how child => do Planting.add (.enclosed how (← plant child))
  | conditional c expression yes no => do
    let expression ← plant expression
    let yes ← plant yes
    let no ← plant no
    Planting.add (.conditional c expression yes no)
  | modified on off child => do Planting.add (.modified on off (← plant child))

/-- Adds the nodes of several trees. -/
def plantAll : List Tree → Planting (List Ref)
  | [] => return []
  | t :: rest => do
    let r ← plant t
    let others ← plantAll rest
    return r :: others

end

/-- Nothing. -/
def absent : Tree := existing none

/-- A text that stands for itself. -/
def literal (text : Text) : Tree := leaf (.literal text)

/-- A plain character. -/
def char (n : Int32) : Tree := leaf (.character (.plain n))

/-- `child` from `min` to `max` times, as often as possible. -/
def repeated (child : Tree) (min max : Int) : Tree := quantified ⟨min, max, true⟩ child

/-- `child` exactly `n` times. -/
def exactly (child : Tree) (n : Int) : Tree := repeated child n n

/-- `child` at least `n` times. -/
def atLeast (child : Tree) (n : Int) : Tree := repeated child n unbounded

/-- A set of plain characters. -/
def setOf (values : List Int32) : Tree :=
  set { members := values.map fun n => .fresh (.character (.plain n)) }

end Tree

/-- A group name: letters and decimal digits of any script, and `_`. -/
def isNameGlyph (g : Glyph) : Bool :=
  isLetter g.read || isDecimalDigit g.read || g.read = '_'

/-- Accepts a group name. -/
def checkName (role : NameRole) (name : Text) : Except ArgumentError Unit :=
  if name = [] then .error (.emptyName role)
  else if name.all isNameGlyph then .ok ()
  else .error (.badName role name)

/-- A reference to the group called `name`. -/
def Leaf.namedBackreference (name : Text) : Except ArgumentError Leaf :=
  (checkName .name name).map fun _ => .backreference (.named name)

/-- A comment, which must not contain its own end. -/
def Leaf.checkedComment (text : Text) : Except ArgumentError Leaf :=
  if .char ')' ∈ text then .error (.comment text) else .ok (.comment text)

/-- The group called `name`. -/
def Enclosure.checkedNamed (name : Text) : Except ArgumentError Enclosure :=
  (checkName .name name).map fun _ => .named name

/-- The group that is called `name`, if that is not empty, and drops the last capture of `other`. -/
def Enclosure.checkedBalancing (name other : Text) : Except ArgumentError Enclosure := do
  if name ≠ [] then
    checkName .name name
  checkName .other other
  return .balancing name other

/-- The condition that the group called `name` has matched. -/
def Condition.checkedName (name : Text) : Except ArgumentError Condition :=
  (checkName .name name).map fun _ => { kind := .groupName, name := name }

/-- The range between two existing nodes, which must be characters in order. -/
def Graph.range (g : Graph) (first last : Ref) : Except ArgumentError (Range Ref) :=
  match g.character? first, g.character? last with
  | none, _ => .error (.endpoint .start (g.label first))
  | some _, none => .error (.endpoint .stop (g.label last))
  | some a, some b => (Range.ofCharacters a b).map fun _ => ⟨first, last⟩

end RegexBuilder
