/-
# The flattened tree of a pattern

What a pattern says, whatever its nodes are: a list of branches, each a list of shapes. The nodes that only hold
others together leave no trace:

| node | flattened |
| --- | --- |
| empty pattern | nothing, which is `[[]]`: one branch without shapes |
| `group`, `alternation` of one, `quantified` once, `modified` without options | the child |
| `concat` | the children that are not nothing, in sequence |
| `alternation` | the branches of all branches |
| `quantified` | nothing if the child is nothing or at most 0 times, else one `repeated` |
| `enclosed`, `conditional`, `modified` | nothing if what they enclose is nothing, else one shape |

A negative lookaround around nothing is not nothing: it never matches.
-/

import RegexBuilder.Proofs.Cycle
import RegexBuilder.Proofs.Reading

namespace RegexBuilder

open List

/-- The atom that a character is written as, outside a set. -/
def Character.atom : Character → Atom
  | plain n => .char (Glyph.ofCode n).read
  | null => .escape "0"
  | bell => .escape "a"
  | backspace => .bracket "[\\b]"
  | formFeed => .escape "f"
  | newLine => .escape "n"
  | carriageReturn => .escape "r"
  | tab => .escape "t"
  | verticalTab => .escape "v"
  | controlLetter n => .escape ("c" ++ [Glyph.char (Char.ofNat (n + 65))])
  | hexCode n => .escape ("x" ++ Text.ofNatBase 16 2 n.toNat)
  | octalCode n => .escape (Text.ofNatBase 8 3 n)
  | unicodeCode n => .escape ("u" ++ Text.ofNatBase 16 4 n.toNat)

/-- The atom that a class is written as. -/
def CharClass.atom (c : CharClass) : Atom :=
  match c.kind with
  | .word => .escape "w"
  | .notWord => .escape "W"
  | .digit => .escape "d"
  | .notDigit => .escape "D"
  | .space => .escape "s"
  | .notSpace => .escape "S"
  | .category => .escape ("p\x7b" ++ c.name ++ "\x7d")
  | .notCategory => .escape ("P\x7b" ++ c.name ++ "\x7d")
  | .undeclared _ => .escape []

/-- The atom that an anchor is written as. -/
def AnchorKind.atom : AnchorKind → Atom
  | lineStart => .sign '^'
  | lineEnd => .sign '$'
  | textStart => .escape "A"
  | textEndOrNewline => .escape "Z"
  | textEnd => .escape "z"
  | contiguous => .escape "G"
  | wordBoundary => .escape "b"
  | notWordBoundary => .escape "B"
  | undeclared _ => .escape []

/-- The atom that a backreference is written as. -/
def Backreference.atom (b : Backreference) : Atom :=
  .escape (if b.name ≠ [] then "k<" ++ b.name ++ ">" else Text.ofInt b.number)

/-- The atoms of a leaf: those of a text are its characters. -/
def Leaf.atoms : Leaf → List Atom
  | literal text => text.map fun g => .char g.read
  | raw text => if text.isEmpty then [] else [.note text]
  | character c => [c.atom]
  | charClass c => [c.atom]
  | wildcard => [.sign '.']
  | anchor kind => [kind.atom]
  | backreference b => [b.atom]
  | comment text => if text.isEmpty then [] else [.note ("(?#" ++ text ++ ")")]

/-- The atom of a member of a set that is written in the set's place. -/
def Graph.memberAtom (g : Graph) (r : Ref) : Atom :=
  match g.deref? r with
  | some (.leaf (.character c)) => c.atom
  | some (.leaf (.charClass c)) => c.atom
  | _ => .bracket []

/-- The atom that a set is written as: that of its only element, or a text in brackets. -/
def CharacterSet.atom (g : Graph) (s : CharacterSet Ref) : Except Objection Atom := do
  let ranges ← resolveRanges g s.ranges
  let subtracted ← resolveRanges g s.subtractedRanges
  match s.only? ranges with
  | some r => return g.memberAtom r
  | none => return .bracket (← s.bracketed g ranges subtracted)

/-- The text of the condition that a group has matched. -/
def Condition.test (c : Condition) : Text :=
  match c.kind with
  | .groupNumber => Text.ofInt c.group
  | .groupName => c.name
  | .expression | .undeclared _ => []

/-- The enclosure asserts that its child does not match. -/
def Enclosure.isNegative : Enclosure → Bool
  | look kind => kind.isNegative
  | capture | named _ | balancing _ _ | atomic => false

namespace Shape

/-- One branch without shapes: what an empty pattern comes to. -/
def isNothing : List (List Shape) → Bool
  | [[]] => true
  | _ => false

theorem isNothing_iff {bs : List (List Shape)} : isNothing bs = true ↔ bs = [[]] := by
  unfold isNothing
  split
  · simp
  · next h => simpa using h

/-- One branch with one shape. -/
def one (s : Shape) : List (List Shape) := [[s]]

end Shape

open Shape (isNothing one)

namespace Node

variable (g : Graph) (F : Ref → List (List Shape))

/-- The flattened node, given its flattened references. -/
def flat : Node → List (List Shape)
  | leaf l => [l.atoms.map .token]
  | set s =>
    if s.hasBase || s.hasSubtraction then
      match s.atom g with
      | .ok a => one (.token a)
      | .error _ => one (.token (.bracket []))
    else [[]]
  | concat children => Shape.sequence ((children.map F).filter fun x => !isNothing x)
  | alternation [] => [[]]
  | alternation (r :: rest) => (r :: rest).flatMap F
  | quantified b child =>
    if b.max = 0 || isNothing (F child) then [[]]
    else if b.isOnce then F child
    else one (.repeated (F child) b)
  | group child => F child
  | enclosed how child =>
    if isNothing (F child) && !how.isNegative then [[]] else one (.group how.opening (F child))
  | conditional c _ yes no =>
    if isNothing (F yes) && isNothing (F no) then [[]]
    else one (.conditional c.test (if isNothing (F no) then [F yes] else [F yes, F no]))
  | modified on off child =>
    if g.isAbsent child then
      if on = .empty && off = .empty then [[]]
      else one (.token (.note ("(?" ++ optionFlags on off ++ ")")))
    else if isNothing (F child) then [[]]
    else if on = .empty && off = .empty then F child
    else one (.group ("(?" ++ optionFlags on off ++ ":") (F child))

variable {g F}

/-- A flattened node looks only at its references. -/
theorem flat_congr {F' : Ref → List (List Shape)} {n : Node} (h : ∀ r ∈ n.refs, F r = F' r) :
    n.flat g F = n.flat g F' := by
  cases n with
  | leaf | set => rfl
  | concat cs =>
    have hmap : cs.map F = cs.map F' := map_congr_left h
    rw [flat, flat, hmap]
  | alternation cs =>
    cases cs with
    | nil => rfl
    | cons => exact flatMap_congr h
  | quantified b c | group c | enclosed how c | modified on off c =>
    rw [flat, flat, h c (mem_singleton.2 rfl)]
  | conditional t e yes no =>
    rw [flat, flat, h yes (by simp [refs]), h no (by simp [refs])]

end Node

namespace Graph

/-- The flattened tree, with nothing beyond the given depth. -/
def flattenTo (g : Graph) : Nat → Ref → List (List Shape)
  | 0, _ => [[]]
  | d + 1, r =>
    match g.deref? r with
    | none => [[]]
    | some n => n.flat g (g.flattenTo d)

/-- The flattened tree of a pattern. -/
def flattened (g : Graph) (r : Ref) : List (List Shape) := g.flattenTo (g.size + 1) r

variable {g : Graph}

theorem flattenTo_node {i : NodeId} {n : Node} (hn : g.node? i = some n) (d : Nat) :
    g.flattenTo (d + 1) (some i) = n.flat g (g.flattenTo d) := by
  have hr : g.deref? (some i) = some n := hn
  rw [flattenTo, hr]

theorem flattened_absent {r : Ref} (hr : g.deref? r = none) : g.flattened r = [[]] := by
  rw [flattened, flattenTo, hr]

/-- **Without a cycle the bound on the depth is not felt.** A descent is as long as there are nodes
that are not on it. -/
theorem flattenTo_eq_flattenTo : ∀ {d d' : Nat} {o : List NodeId} {r : Ref}, ¬ g.HasCycleFrom r →
    g.IsDescent o → g.Leads o r → g.uncopied o < d → g.uncopied o < d' →
    g.flattenTo d r = g.flattenTo d' r
  | 0, _, _, _, _, _, _, h, _ | _, 0, _, _, _, _, _, _, h => absurd h (Nat.not_lt_zero _)
  | d + 1, d' + 1, o, r, hr, ho, hleads, h, h' => by
    rcases g.absent_or_node r with hderef | ⟨i, n, rfl, hn⟩
    · rw [flattenTo, flattenTo, hderef]
    · rw [flattenTo_node hn, flattenTo_node hn]
      have hi : i ∉ o := fun hi => hr (ho.isCycleReport hleads hn hi).2
      have hlt := uncopied_append_lt (lt_size_of_node? hn) hi
      refine Node.flat_congr fun c hc => ?_
      have hbelow := below_of_mem_refs hn hc
      exact flattenTo_eq_flattenTo (fun hcycle => hr (hcycle.of_below hbelow))
        (ho.append hleads hn hi) (leads_append_self o hbelow) (by omega) (by omega)

/-- **The flattened tree of a node is made from those of its references.** -/
theorem flattened_node {i : NodeId} {n : Node} (hn : g.node? i = some n)
    (hi : ¬ g.HasCycleFrom (some i)) : g.flattened (some i) = n.flat g g.flattened := by
  rw [flattened, flattenTo_node hn]
  refine Node.flat_congr fun c hc => ?_
  have hbelow := below_of_mem_refs hn hc
  have hnil := g.isDescent_nil
  have hlt := uncopied_append_lt (o := []) (lt_size_of_node? hn) not_mem_nil
  have hle := g.uncopied_le []
  exact flattenTo_eq_flattenTo (fun hcycle => hi (hcycle.of_below hbelow))
    (hnil.append (g.leads_nil _) hn not_mem_nil) (leads_append_self [] hbelow) (by omega) (by omega)

end Graph
end RegexBuilder
