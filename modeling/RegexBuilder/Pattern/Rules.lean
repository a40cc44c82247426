/-
# The rules of the nodes

How each kind of node answers the questions about itself, given the answers of others:

* `Node.isEmpty`: it is written as nothing;
* `Node.isSingle`: a quantifier after its text would bind to all of it;
* `Node.core`: the node that it comes down to once trivial containers are removed;
* `Node.write`: its text.

The rules do not call themselves but ask; `Pattern.Ask` closes the circle.
-/

import RegexBuilder.Pattern.Rule

namespace RegexBuilder

/-- The children that are not empty. -/
def nonEmpty : List Ref → Rule (List Ref)
  | [] => return []
  | r :: rest => do
    let empty ← Rule.ask .empty r
    let others ← nonEmpty rest
    return if empty then others else r :: others

namespace Bounds

/-- The objection to the bounds, if there is one. -/
def objection? (b : Bounds) : Option Objection :=
  if b.min < 0 then some (.negativeMinimum b.min)
  else if b.max < unbounded then some (.negativeMaximum b.max)
  else if b.max ≠ unbounded ∧ b.max < b.min then some (.invertedBounds b.max b.min)
  else none

end Bounds

namespace Leaf

/-- Only the empty literal, raw text and comment are written as nothing. -/
def isEmpty : Leaf → Bool
  | literal text | raw text | comment text => text.isEmpty
  | _ => false

/-- A literal is single up to one character, a raw text only if it is empty. -/
def isSingle : Leaf → Bool
  | literal text => text.length ≤ 1
  | raw text => text.isEmpty
  | _ => true

/-- The text of the leaf. -/
def form : Leaf → Except Objection Text
  | literal text => .ok (escapeLiteral text)
  | raw text => .ok text
  | character c => .ok (c.form false)
  | charClass c => if c.isNameless then .error .namelessCategory else .ok c.form
  | wildcard => .ok "."
  | anchor kind =>
    match kind.form? with
    | some t => .ok t
    | none => .error (.unknownAnchor kind.code)
  | backreference b =>
    if b.name ≠ [] then .ok ("\\k<" ++ b.name ++ ">")
    else if b.number < 1 ∨ Objection.maxBackreference < b.number then .error (.backreferenceNumber b.number)
    else .ok ("\\" ++ Text.ofInt b.number)
  | comment text =>
    if text.isEmpty then .ok []
    else if .char ')' ∈ text then .error .commentParenthesis
    else .ok ("(?#" ++ text ++ ")")

end Leaf

namespace CharacterSet

/-- The ranges with their characters, unless one lacks an endpoint or is inverted. -/
def resolveRanges (g : Graph) (ranges : List (Range Ref)) :
    Except Objection (List (Range Character)) :=
  ranges.mapM fun r =>
    match r.mapM? g.character? with
    | none => .error .missingEndpoint
    | some c =>
      if c.isInverted then .error (.invertedRange (c.first.form true) (c.last.form true)) else .ok c

/-- The members as they are written in a set. -/
def memberForms (g : Graph) (members : List Ref) : Except Objection (List Text) :=
  members.mapM fun m =>
    match g.memberForm? m with
    | none => .error .missingMember
    | some t => .ok t

/-- Ranges and members as they are written in a set. -/
def contents (g : Graph) (ranges : List (Range Character)) (members : List Ref) :
    Except Objection Text := do
  let forms ← memberForms g members
  return (ranges.map Range.form).flatten ++ forms.flatten

/-- The node that alone is written in place of the set: its only member, or the first endpoint of its only range if
that holds one character. -/
def only? (s : CharacterSet Ref) (ranges : List (Range Character)) : Option Ref :=
  if s.negated || s.hasSubtraction then none
  else match s.ranges, ranges, s.members with
    | [], _, [m] => some m
    | [r], [c], [] => if c.isSingle then some r.first else none
    | _, _, _ => none

/-- The text of the set between brackets. -/
def bracketed (g : Graph) (s : CharacterSet Ref) (ranges subtracted : List (Range Character)) :
    Except Objection Text := do
  let base ← contents g ranges s.members
  let opening : Text := if s.negated then "[^" else "["
  if s.hasSubtraction then
    let minus ← contents g subtracted s.subtractedMembers
    return opening ++ base ++ "-[" ++ minus ++ "]]"
  else
    return opening ++ base ++ "]"

end CharacterSet

namespace Node

/-- Whether the node is written as nothing. -/
def isEmpty (g : Graph) (i : NodeId) : Node → Rule Bool
  | leaf l => return l.isEmpty
  | set s => return !s.hasBase && !s.hasSubtraction
  | concat children => do return (← nonEmpty children).isEmpty
  | alternation [] => return true
  | alternation [r] => Rule.ask .empty r
  | alternation _ => return false
  | quantified b child => do
    if let some why := b.objection? then
      Rule.object i why
    else if b.max = 0 then
      return true
    else
      Rule.ask .empty (← Rule.ask .core child)
  | group child => Rule.ask .empty child
  | enclosed (.look kind) child => if kind.isNegative then return false else Rule.ask .empty child
  | enclosed _ child => Rule.ask .empty child
  | conditional _ _ yes no => do
    if ← Rule.ask .empty yes then Rule.ask .empty no else return false
  | modified on off child =>
    if g.isAbsent child then return on = .empty && off = .empty else Rule.ask .empty child

/-- Whether a quantifier after the node's text would bind to all of it. -/
def isSingle (i : NodeId) : Node → Rule Bool
  | leaf l => return l.isSingle
  | concat children => do
    match ← nonEmpty children with
    | [] => return true
    | [r] => Rule.ask .single r
    | _ => return false
  | alternation [] => return true
  | alternation [r] => Rule.ask .single r
  | alternation _ => return false
  | quantified b child => do
    if ← Rule.ask .empty (some i) then return true
    else if b.isOnce then Rule.ask .single child
    else return false
  | group child => Rule.ask .single child
  | set _ | enclosed _ _ | conditional _ _ _ _ | modified _ _ _ => return true

/-- What the node comes down to. -/
def core (g : Graph) (i : NodeId) : Node → Rule Ref
  | concat children => do
    match ← nonEmpty children with
    | [r] => Rule.ask .core r
    | _ => return some i
  | alternation [r] => Rule.ask .core r
  | quantified b child => if b.isOnce then Rule.ask .core child else return some i
  | group child => if g.isAbsent child then return some i else Rule.ask .core child
  | leaf _ | set _ | alternation _ | enclosed _ _ | conditional _ _ _ _ | modified _ _ _ =>
    return some i

end Node

/-- Writes what is referred to, in a group unless it is single. -/
def writeSingle (r : Ref) : Rule Unit := do
  if ← Rule.ask .single r then
    Rule.write r
  else
    Rule.emit "(?:"
    Rule.write r
    Rule.emit ")"

/-- An alternation of several branches, which would run into its surroundings. -/
def isOpenAlternation (g : Graph) (r : Ref) : Bool :=
  match g.deref? r with
  | some (.alternation (_ :: _ :: _)) => true
  | _ => false

/-- Writes what is referred to next to siblings, or as a branch: what it comes down to, and that in
a group if it is an open alternation. -/
def writeBranch (g : Graph) (r : Ref) : Rule Unit := do
  let u ← Rule.ask .core r
  if isOpenAlternation g u then
    Rule.emit "(?:"
    Rule.write u
    Rule.emit ")"
  else
    Rule.write u

/-- Writes the rest of the children of a sequence, each kept apart from an escape before it. -/
def writeRest (g : Graph) : List Ref → Rule Unit
  | [] => return ()
  | r :: rest => do
    let start ← Rule.place
    writeBranch g r
    Rule.separate start
    writeRest g rest

/-- Writes the branches, with `|` before each. -/
def writeBranches : List Ref → Rule Unit
  | [] => return ()
  | r :: rest => do
    Rule.emit "|"
    Rule.write r
    writeBranches rest

/-- Writes `opening`, the contents and `)`, or nothing at all if node `i` is empty. -/
def writeGroup (i : NodeId) (opening : Text) (contents : Rule Unit) : Rule Unit := do
  if ← Rule.ask .empty (some i) then
    return ()
  else
    Rule.emit opening
    contents
    Rule.emit ")"

/-- Writes the condition of the conditional `i`. -/
def writeCondition (i : NodeId) (c : Condition) (expression : Ref) : Rule Unit :=
  match c.kind with
  | .groupNumber =>
    if c.group < 0 then Rule.object i (.negativeGroup c.group)
    else Rule.emit (Text.ofInt c.group)
  | .groupName => if c.name.isEmpty then Rule.object i .namelessGroup else Rule.emit c.name
  | .expression => do
    if ← Rule.ask .empty expression then
      Rule.object i .emptyCondition
    else
      Rule.write expression
  | .undeclared code => Rule.object i (.unknownCondition code)

/-- Writes what follows the opening of a conditional. -/
def writeConditional (g : Graph) (i : NodeId) (c : Condition) (expression yes no : Ref) :
    Rule Unit := do
  writeCondition i c expression
  Rule.emit ")"
  writeBranch g yes
  if ← Rule.ask .empty no then
    return ()
  else
    Rule.emit "|"
    writeBranch g no

/-- The letters of the options that are turned on and, after a `-`, of those that are turned off. -/
def optionFlags (on off : Options) : Text :=
  if off = .empty then on.letters else on.letters ++ "-" ++ off.letters

/-- What opens a node with inline options, for the pattern `child` or for all that follows. -/
def optionsOpening (g : Graph) (on off : Options) (child : Ref) : Text :=
  if g.isAbsent child then "(?" ++ optionFlags on off else "(?" ++ optionFlags on off ++ ":"

/-- Why a quantifier cannot stand after the node that it applies to. -/
def quantifierObjection? (g : Graph) : Option Node → Except Fault (Option Objection)
  | some (.leaf (.anchor kind)) =>
    match kind.form? with
    | some form => .ok (some (.quantifiedAnchor form))
    | none => .error (.anchor kind.code)
  | some (.leaf (.comment _)) => .ok (some .quantifiedComment)
  | some (.modified _ _ child) =>
    .ok (if g.isAbsent child then some .quantifiedOptions else none)
  | _ => .ok none

/-- Writes the set `i`. -/
def writeSet (g : Graph) (i : NodeId) (s : CharacterSet Ref) : Rule Unit := do
  if !s.hasBase then
    if s.hasSubtraction then
      Rule.object i .onlySubtraction
    else
      return ()
  else
    let ranges ← Rule.ofResult i (CharacterSet.resolveRanges g s.ranges)
    let subtracted ← Rule.ofResult i (CharacterSet.resolveRanges g s.subtractedRanges)
    match s.only? ranges with
    | some r => Rule.write r
    | none =>
      let text ← Rule.ofResult i (s.bracketed g ranges subtracted)
      if s.hasSubtraction then
        Rule.subtract
      Rule.emit text

/-- Writes a quantified node `i`. -/
def writeQuantified (g : Graph) (i : NodeId) (b : Bounds) (child : Ref) : Rule Unit := do
  if ← Rule.ask .empty (some i) then
    return ()
  else
    let u ← Rule.ask .core child
    match quantifierObjection? g (g.deref? u) with
    | .error fault => Rule.fault fault
    | .ok (some why) => Rule.object i why
    | .ok none =>
      if b.isOnce then
        Rule.write u
      else
        writeSingle u
        Rule.emit b.suffix

/-- Writes the node. -/
def Node.write (g : Graph) (i : NodeId) : Node → Rule Unit
  | leaf l => do Rule.emit (← Rule.ofResult i l.form)
  | set s => writeSet g i s
  | concat children => do
    match ← nonEmpty children with
    | [] => return ()
    | [r] => Rule.write r
    | r :: rest =>
      writeBranch g r
      writeRest g rest
  | alternation [] => return ()
  | alternation (r :: rest) => do
    Rule.write r
    writeBranches rest
  | quantified b child => writeQuantified g i b child
  | group child => Rule.write child
  | enclosed how child => writeGroup i how.opening (Rule.write child)
  | conditional c expression yes no =>
    writeGroup i "(?(" (writeConditional g i c expression yes no)
  | modified on off child =>
    writeGroup i (optionsOpening g on off child) do
      if on.inter off = .empty then Rule.write child
      else Rule.object i (.conflictingOptions (on.inter off))

/-- The rule by which the node answers the question `q` about itself. -/
def Node.rule (g : Graph) (i : NodeId) (n : Node) : (q : Question) → Rule q.Answer
  | .text => do
    n.write g i
    Rule.read
  | .core => n.core g i
  | .empty => n.isEmpty g i
  | .single => n.isSingle i

end RegexBuilder
