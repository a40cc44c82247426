/-
# Pattern graphs

A pattern is a node of a graph. Nodes refer to each other by number, so a node may be shared by
several parents and may lie on a cycle; a reference may also be absent. What a node is:

| node | written |
| --- | --- |
| `leaf` | a text, a character, a class, an anchor, a backreference or a comment |
| `set` | `[…]` |
| `concat`, `alternation` | the children one after another, or separated by `\|` |
| `quantified` | the child and a suffix such as `*` |
| `group` | the child, in `(?:…)` only where it must be |
| `enclosed` | the child between an opening such as `(?>` and `)` |
| `conditional` | `(?(…)yes\|no)` |
| `modified` | `(?on-off:…)`, or `(?on-off)` without a child |
-/

import RegexBuilder.Pattern.Options
import RegexBuilder.Pattern.Range

namespace RegexBuilder

/-- The number of a node in its graph. -/
abbrev NodeId := Nat

/-- A reference to a node, or to nothing. -/
abbrev Ref := Option NodeId

/-- The positions that an anchor can assert. A code outside the eight is kept. -/
inductive AnchorKind where
  | lineStart | lineEnd | textStart | textEndOrNewline | textEnd | contiguous
  | wordBoundary | notWordBoundary
  | undeclared (code : Int)
deriving DecidableEq, Repr

namespace AnchorKind

/-- The kind with the given code. -/
def ofCode : Int → AnchorKind
  | 0 => lineStart
  | 1 => lineEnd
  | 2 => textStart
  | 3 => textEndOrNewline
  | 4 => textEnd
  | 5 => contiguous
  | 6 => wordBoundary
  | 7 => notWordBoundary
  | n => undeclared n

/-- The code of the kind. -/
def code : AnchorKind → Int
  | lineStart => 0
  | lineEnd => 1
  | textStart => 2
  | textEndOrNewline => 3
  | textEnd => 4
  | contiguous => 5
  | wordBoundary => 6
  | notWordBoundary => 7
  | undeclared n => n

/-- No code is lost. -/
theorem code_ofCode (n : Int) : (ofCode n).code = n := by
  unfold ofCode; split <;> rfl

/-- How the anchor is written, if it has a declared kind. -/
def form? : AnchorKind → Option Text
  | lineStart => some "^"
  | lineEnd => some "$"
  | textStart => some "\\A"
  | textEndOrNewline => some "\\Z"
  | textEnd => some "\\z"
  | contiguous => some "\\G"
  | wordBoundary => some "\\b"
  | notWordBoundary => some "\\B"
  | undeclared _ => none

end AnchorKind

/-- A reference to what a group matched: by its name, or without a name by its number. -/
structure Backreference where
  number : Int := 0
  name : Text := []
deriving DecidableEq, Repr

/-- A reference by number. -/
def Backreference.numbered (n : Int) : Backreference := { number := n }

/-- A reference by name. -/
def Backreference.named (name : Text) : Backreference := { name := name }

/-- The patterns without children. -/
inductive Leaf where
  | literal (text : Text)
  /-- A text that is written as it is. -/
  | raw (text : Text)
  | character (c : Character)
  | charClass (c : CharClass)
  | wildcard
  | anchor (kind : AnchorKind)
  | backreference (b : Backreference)
  | comment (text : Text)
deriving DecidableEq, Repr

/-- The four lookarounds. A code outside them is kept, and written like a lookahead. -/
inductive LookKind where
  | ahead | notAhead | behind | notBehind
  | undeclared (code : Int)
deriving DecidableEq, Repr

namespace LookKind

/-- The kind with the given code. -/
def ofCode : Int → LookKind
  | 0 => ahead
  | 1 => notAhead
  | 2 => behind
  | 3 => notBehind
  | n => undeclared n

/-- The code of the kind. -/
def code : LookKind → Int
  | ahead => 0
  | notAhead => 1
  | behind => 2
  | notBehind => 3
  | undeclared n => n

/-- No code is lost. -/
theorem code_ofCode (n : Int) : (ofCode n).code = n := by
  unfold ofCode; split <;> rfl

/-- The lookaround asserts that its child does not match. -/
def isNegative : LookKind → Bool
  | notAhead | notBehind => true
  | _ => false

end LookKind

/-- The constructs that enclose a child in their own parentheses. -/
inductive Enclosure where
  | capture
  | named (name : Text)
  /-- Captures as `name`, which may be empty, and drops the last capture of `other`. -/
  | balancing (name other : Text)
  | atomic
  | look (kind : LookKind)
deriving DecidableEq, Repr

/-- What opens the enclosure; a parenthesis closes it. -/
def Enclosure.opening : Enclosure → Text
  | capture => "("
  | named name => "(?<" ++ name ++ ">"
  | balancing name other => "(?<" ++ name ++ "-" ++ other ++ ">"
  | atomic => "(?>"
  | look .notAhead => "(?!"
  | look .behind => "(?<="
  | look .notBehind => "(?<!"
  | look _ => "(?="

/-- What a conditional asks. A code outside the three is kept. -/
inductive ConditionKind where
  | groupNumber | groupName | expression
  | undeclared (code : Int)
deriving DecidableEq, Repr

namespace ConditionKind

/-- The kind with the given code. -/
def ofCode : Int → ConditionKind
  | 0 => groupNumber
  | 1 => groupName
  | 2 => expression
  | n => undeclared n

/-- The code of the kind. -/
def code : ConditionKind → Int
  | groupNumber => 0
  | groupName => 1
  | expression => 2
  | undeclared n => n

/-- No code is lost. -/
theorem code_ofCode (n : Int) : (ofCode n).code = n := by
  unfold ofCode; split <;> rfl

end ConditionKind

/-- The condition of a conditional. The kind says which field counts; the expression of an
expression condition is a child of the conditional. -/
structure Condition where
  kind : ConditionKind
  group : Int := 0
  name : Text := []
deriving DecidableEq, Repr

/-- The upper bound of a quantifier without one. -/
def unbounded : Int := -1

/-- How often a quantified pattern repeats. -/
structure Bounds where
  min : Int
  max : Int
  greedy : Bool := true
deriving DecidableEq, Repr

namespace Bounds

/-- Exactly once, which is not written. -/
def isOnce (b : Bounds) : Bool := b.min = 1 && b.max = 1

/-- The suffix that says how often, without the mark of a lazy quantifier. -/
def count (b : Bounds) : Text :=
  if b.min = 0 ∧ b.max = 1 then "?"
  else if b.min = 0 ∧ b.max = unbounded then "*"
  else if b.min = 1 ∧ b.max = unbounded then "+"
  else if b.min = b.max then "\x7b" ++ Text.ofInt b.min ++ "\x7d"
  else if b.max = unbounded then "\x7b" ++ Text.ofInt b.min ++ ",\x7d"
  else "\x7b" ++ Text.ofInt b.min ++ "," ++ Text.ofInt b.max ++ "\x7d"

/-- The whole suffix; a lazy quantifier has a `?` at its end. -/
def suffix (b : Bounds) : Text := if b.greedy then b.count else b.count ++ "?"

end Bounds

/-- One node of a pattern graph. -/
inductive Node where
  | leaf (l : Leaf)
  | set (s : CharacterSet Ref)
  | concat (children : List Ref)
  | alternation (branches : List Ref)
  | quantified (bounds : Bounds) (child : Ref)
  | group (child : Ref)
  | enclosed (how : Enclosure) (child : Ref)
  | conditional (condition : Condition) (expression yes no : Ref)
  | modified (on off : Options) (child : Ref)
deriving DecidableEq, Repr

instance : Inhabited Node := ⟨.leaf .wildcard⟩

/-- The name of the node's variant in messages. -/
def Node.label : Node → Text
  | leaf (.literal _) => "Literal"
  | leaf (.raw _) => "Raw"
  | leaf (.character _) => "Character"
  | leaf (.charClass _) => "Class"
  | leaf .wildcard => "Wildcard"
  | leaf (.anchor _) => "Anchor"
  | leaf (.backreference _) => "Backreference"
  | leaf (.comment _) => "Comment"
  | set _ => "CharacterSet"
  | concat _ => "Concat"
  | alternation _ => "Or"
  | quantified _ _ => "Quantifier"
  | group _ => "NonCaptureGroup"
  | enclosed .capture _ => "CaptureGroup"
  | enclosed (.named _) _ => "NamedGroup"
  | enclosed (.balancing _ _) _ => "BalancingGroup"
  | enclosed .atomic _ => "AtomicGroup"
  | enclosed (.look .ahead) _ => "Lookahead"
  | enclosed (.look .notAhead) _ => "NegativeLookahead"
  | enclosed (.look .behind) _ => "Lookbehind"
  | enclosed (.look .notBehind) _ => "NegativeLookbehind"
  | enclosed (.look (.undeclared _)) _ => "Lookaround"
  | conditional _ _ _ _ => "Conditional"
  | modified _ _ _ => "InlineModifier"

/-- A finite graph of nodes. A reference beyond its last node counts as absent. -/
structure Graph where
  nodes : Array Node := #[]
deriving Repr

namespace Graph

/-- The number of nodes. -/
def size (g : Graph) : Nat := g.nodes.size

/-- The node with the number `i`. -/
def node? (g : Graph) (i : NodeId) : Option Node := g.nodes[i]?

/-- A node of the graph is in its array. -/
theorem mem_nodes {g : Graph} {i : NodeId} {n : Node} (h : g.node? i = some n) : n ∈ g.nodes := Array.mem_of_getElem? h

/-- The node that is referred to. -/
def deref? (g : Graph) (r : Ref) : Option Node := r.bind g.node?

/-- The reference leads to no node. -/
def isAbsent (g : Graph) (r : Ref) : Bool := (g.deref? r).isNone

/-- The character that is referred to. -/
def character? (g : Graph) (r : Ref) : Option Character :=
  match g.deref? r with
  | some (.leaf (.character c)) => some c
  | _ => none

theorem deref?_of_character? {g : Graph} {r : Ref} {c : Character} (h : g.character? r = some c) :
    g.deref? r = some (.leaf (.character c)) := by
  unfold character? at h
  split at h
  · next hr => rw [hr, Option.some.inj h]
  · cases h

/-- How a set member is written: it must be a character or a class. -/
def memberForm? (g : Graph) (r : Ref) : Option Text :=
  match g.deref? r with
  | some (.leaf (.character c)) => some (c.form true)
  | some (.leaf (.charClass c)) => some c.form
  | _ => none

/-- The name of what is referred to in messages. -/
def label (g : Graph) (r : Ref) : Text :=
  match g.deref? r with
  | some n => n.label
  | none => "<nil>"

/-- The graph with one more node, and the number of that node. -/
def add (g : Graph) (n : Node) : NodeId × Graph := (g.nodes.size, ⟨g.nodes.push n⟩)

/-- The graph with another node in the place of node `i`. -/
def put (g : Graph) (i : NodeId) (n : Node) : Graph := ⟨g.nodes.setIfInBounds i n⟩

end Graph
end RegexBuilder
