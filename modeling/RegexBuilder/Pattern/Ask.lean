/-
# Asking about patterns

The four questions about a pattern that leave the graph as it is. `asking` closes the circle of the
nodes' rules: it hands the rules the questions themselves, one level deeper. Each level opens one
question about one node, and no question is open twice about the same node, so with `n` nodes no
more than `4 n` levels are ever open at once.
-/

import RegexBuilder.Pattern.Rules
import RegexBuilder.Pattern.Session

namespace RegexBuilder

namespace Graph

/-- `f` of the node that is referred to, or `absent` if there is none. -/
def onNode {α : Type} (g : Graph) (absent : α) (f : NodeId → Node → Ask α) : Ref → Ask α
  | none => return absent
  | some i =>
    match g.node? i with
    | none => return absent
    | some n => f i n

/-- One level of questions, asked while those of `o` are open: a node answers by its rule, and what the rule asks is
answered one level `deeper`. If `keep` is false no answer is kept. -/
def level (g : Graph) (keep : Bool) (deeper : Open → Asking) (o : Open) : Asking := fun q =>
  g.onNode q.absent fun i n => visit keep o q i ((n.rule g i q).start (deeper (o.enter q i)))

section

variable {g : Graph} {keep : Bool} {deeper : Open → Asking} {o : Open} {q : Question}

theorem level_absent {r : Ref} (h : g.deref? r = none) (s : Session) :
    g.level keep deeper o q r s = .ok (q.absent, s) := by
  cases r with
  | none => rfl
  | some i =>
    have hi : g.node? i = none := h
    simp only [level, onNode, hi]
    rfl

/-- A node answers by its rule. -/
theorem level_node {i : NodeId} {n : Node} (h : g.node? i = some n) :
    g.level keep deeper o q (some i) =
      visit keep o q i ((n.rule g i q).start (deeper (o.enter q i))) := by
  simp only [level, onNode, h]

end

/-- The four questions, at most `depth` levels deep, asked while those of `o` are open. -/
def asking (g : Graph) (keep : Bool) : (depth : Nat) → Open → Asking
  | 0 => fun _ _ _ => throw .exhausted
  | depth + 1 => g.level keep (g.asking keep depth)

/-- The four questions, with none of them open. -/
def questions (g : Graph) (keep : Bool) : Asking := g.asking keep (4 * g.size + 1) Open.none

end Graph

/-- A text and whether a subtraction of sets stands in it. -/
structure Rendering where
  text : Text
  subtraction : Bool
deriving DecidableEq, Repr

namespace Ask

/-- The answer in a session of its own. -/
def answer {α : Type} (a : Ask α) : Except Failure α := a.run' {}

/-- What is written in a session of its own. -/
def rendering (a : Ask Text) : Except Failure Rendering := do
  let (_, s) ← a.run {}
  return ⟨s.out, s.subtraction⟩

end Ask

namespace Graph

/-- The text of the pattern. -/
def render (g : Graph) (r : Ref) : Except Failure Rendering :=
  (g.questions true .text r).rendering

/-- The node that the pattern comes down to once trivial containers are removed. -/
def core (g : Graph) (r : Ref) : Except Failure Ref := (g.questions true .core r).answer

/-- The pattern is written as nothing. -/
def isEmpty (g : Graph) (r : Ref) : Except Failure Bool := (g.questions true .empty r).answer

/-- The pattern can be quantified without a group. -/
def isSingle (g : Graph) (r : Ref) : Except Failure Bool := (g.questions true .single r).answer

end Graph
end RegexBuilder
