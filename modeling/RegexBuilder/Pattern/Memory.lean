/-
# Patterns in memory

The nodes of a graph have their lists inside them. In memory a node keeps only where its lists are: a list is nil, or
it is a *slice*, a part of an array. Several slices may be parts of one array, and a slice may grow in place up to its
capacity, so that a change of one list can show in another one.

`Memory.graph` is the graph that the nodes in memory make up. A copy of a node keeps its nil lists nil and puts every
other list into an array of its own (`Memory.copy`); a change of a node appends to its lists as far as there is room
(`Memory.edit`).
-/

import RegexBuilder.Pattern.Copy
import RegexBuilder.Pattern.Edit

namespace RegexBuilder

/-- A part of an array, which can grow up to its capacity. -/
structure Slice where
  array : Nat
  start : Nat
  length : Nat
  capacity : Nat
deriving DecidableEq, Repr

/-- What an array holds: patterns, or ranges. -/
inductive Slot where
  | pattern (r : Ref)
  | range (r : Range Ref)
deriving DecidableEq, Repr

/-- The pattern. -/
def Slot.ref : Slot → Ref
  | pattern r => r
  | range r => r.first

/-- The range. -/
def Slot.span : Slot → Range Ref
  | pattern r => ⟨r, none⟩
  | range r => r

/-- One node in memory. No slice is nil. -/
inductive Cell where
  | leaf (l : Leaf)
  | set (ranges members subtractedRanges subtractedMembers : Option Slice) (negated : Bool)
  | concat (children : Option Slice)
  | alternation (branches : Option Slice)
  | quantified (bounds : Bounds) (child : Ref)
  | group (child : Ref)
  | enclosed (how : Enclosure) (child : Ref)
  | conditional (condition : Condition) (expression yes no : Ref)
  | modified (on off : Options) (child : Ref)
deriving DecidableEq, Repr

/-- The lists of the node. -/
def Cell.slices : Cell → List (Option Slice)
  | set ranges members subtractedRanges subtractedMembers _ =>
    [ranges, members, subtractedRanges, subtractedMembers]
  | concat s | alternation s => [s]
  | _ => []

/-- Nodes and the arrays that their lists are parts of. -/
structure Memory where
  cells : Array Cell := #[]
  arrays : Array (List Slot) := #[]
deriving Repr

namespace Memory

/-- The elements of a list; nil has none. -/
def read (m : Memory) : Option Slice → List Slot
  | none => []
  | some s => ((m.arrays[s.array]?.getD []).drop s.start).take s.length

end Memory

/-- The node with its lists. -/
def Cell.node (m : Memory) : Cell → Node
  | leaf l => .leaf l
  | set ranges members subtractedRanges subtractedMembers negated =>
    .set ⟨(m.read ranges).map Slot.span, (m.read members).map Slot.ref,
      (m.read subtractedRanges).map Slot.span, (m.read subtractedMembers).map Slot.ref, negated⟩
  | concat s => .concat ((m.read s).map Slot.ref)
  | alternation s => .alternation ((m.read s).map Slot.ref)
  | quantified b c => .quantified b c
  | group c => .group c
  | enclosed how c => .enclosed how c
  | conditional t e yes no => .conditional t e yes no
  | modified on off c => .modified on off c

namespace Memory

/-- The graph that the nodes make up. -/
def graph (m : Memory) : Graph := ⟨m.cells.map (Cell.node m)⟩

/-! ### Storing lists -/

/-- A new array for the elements; `growth` says how much room an array of a given length gets. -/
def allocate (growth : Nat → Nat) (l : List Slot) : StateM Memory (Option Slice) := fun m =>
  (some ⟨m.arrays.size, 0, l.length, max l.length (growth l.length)⟩, { m with arrays := m.arrays.push l })

/-- The list with more elements: in its place if there is room, otherwise in a new array. -/
def append (growth : Nat → Nat) (s : Option Slice) (more : List Slot) : StateM Memory (Option Slice) := fun m =>
  if more = [] then (s, m)
  else
    match s with
    | none => allocate growth more m
    | some t =>
      if t.length + more.length ≤ t.capacity then
        let written := t.start + t.length
        (some { t with length := t.length + more.length },
          { m with arrays := m.arrays.modify t.array fun a =>
              a.take written ++ more ++ a.drop (written + more.length) })
      else allocate growth (m.read s ++ more) m

/-- What becomes of a list when a node gets new elements for it. -/
inductive Storing where
  /-- A nil list stays nil, and any other goes to a new array without spare room. -/
  | copied
  /-- The elements begin with those of the list, and what is new is appended. -/
  | extended
  /-- An empty list becomes nil, and any other goes to a new array without spare room. -/
  | replaced
deriving DecidableEq, Repr

/-- The list `s` with the elements `l`. -/
def store (growth : Nat → Nat) (how : Storing) (s : Option Slice) (l : List Slot) :
    StateM Memory (Option Slice) := fun m =>
  match how with
  | .copied => if s.isNone then (none, m) else allocate id l m
  | .extended => append growth s (l.drop (m.read s).length) m
  | .replaced => if m.read s = [] then (none, m) else allocate id l m

end Memory

/-- The node in memory, where `put k` stores what becomes its list number `k`. -/
def Node.stored (put : Nat → List Slot → StateM Memory (Option Slice)) : Node → StateM Memory Cell
  | leaf l => return .leaf l
  | set t => do
    let members ← put 1 (t.members.map .pattern)
    let subtractedMembers ← put 3 (t.subtractedMembers.map .pattern)
    let ranges ← put 0 (t.ranges.map .range)
    let subtractedRanges ← put 2 (t.subtractedRanges.map .range)
    return .set ranges members subtractedRanges subtractedMembers t.negated
  | concat children => return .concat (← put 0 (children.map .pattern))
  | alternation branches => return .alternation (← put 0 (branches.map .pattern))
  | quantified b child => return .quantified b child
  | group child => return .group child
  | enclosed how child => return .enclosed how child
  | conditional t expression yes no => return .conditional t expression yes no
  | modified on off child => return .modified on off child

/-! ### Copying -/

/-- A computation that adds nodes to a memory. -/
abbrev Writing := StateT Memory (Except Failure)

namespace Memory

/-- The memory with a new node: its lists are nil where those of `like` are, and otherwise have arrays of their own. -/
def add (m : Memory) (like : List (Option Slice)) (n : Node) : Memory :=
  let (c, m') := n.stored (fun k => store id .copied (like.getD k none)) m
  { m' with cells := m'.cells.push c }

end Memory

/-- Adds a node and refers to it. -/
def Writing.add (like : List (Option Slice)) (n : Node) : Writing Ref := fun m =>
  .ok (some m.cells.size, m.add like n)

namespace Memory

/-- A copy of a character that ends a range. -/
def copyEndpoint (m : Memory) (r : Ref) : Writing Ref :=
  match m.graph.character? r with
  | some c => Writing.add [] (.leaf (.character c))
  | none => throw (.broken .endpoint)

/-- A copy of what is referred to, made while the nodes of `o` are being copied: a new node, whose own references are
copied one level `deeper`. -/
def copyLevel (m : Memory) (deeper : List NodeId → Ref → Writing Ref) (o : List NodeId) : Ref → Writing Ref
  | none => return none
  | some i =>
    match m.cells[i]? with
    | none => return none
    | some c => do
      if i ∈ o then
        throw (.recursion .copy (o ++ [i]))
      Writing.add c.slices (← (c.node m).copy m.copyEndpoint (deeper (o ++ [i])))

/-- A copy of what is referred to, at most `depth` levels deep. -/
def copying (m : Memory) : (depth : Nat) → List NodeId → Ref → Writing Ref
  | 0 => fun _ _ _ => throw .exhausted
  | depth + 1 => m.copyLevel (m.copying depth)

/-- A copy of the pattern, in the memory that the copy was added to. -/
def copy (m : Memory) (r : Ref) : Except Failure (Ref × Memory) :=
  (m.copying (m.cells.size + 1) [] r).run m

/-! ### Changing -/

end Memory

/-- What the change makes of list number `k` of its node: the ranges that are fused become new lists, and all other
lists only grow. -/
def Edit.storing : Edit → (k : Nat) → Memory.Storing
  | fuseRanges, 0 | fuseSubtracted, 2 => .replaced
  | _, _ => .extended

namespace Memory

/-- The memory in which node `i` is changed. -/
def edit (growth : Nat → Nat) (m : Memory) (i : NodeId) (e : Edit) : Except Fault Memory :=
  match m.cells[i]? with
  | none => .error .change
  | some c => do
    let n ← e.apply m.graph (c.node m)
    let (c', m') := n.stored (fun k => store growth (e.storing k) (c.slices.getD k none)) m
    return { m' with cells := m'.cells.setIfInBounds i c' }

/-- The memory in which node `i` is changed step by step, up to a step that has a fault. -/
def edits (growth : Nat → Nat) (m : Memory) (i : NodeId) : List Edit → Memory × Option Fault
  | [] => (m, none)
  | e :: rest =>
    match m.edit growth i e with
    | .ok m => m.edits growth i rest
    | .error fault => (m, some fault)

end Memory
end RegexBuilder
