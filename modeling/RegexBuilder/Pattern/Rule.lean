/-
# Rules as programs

What a node answers to a question about itself depends on the answers of other nodes. A rule is the
program that finds the answer: a list of steps, in which the steps after a question depend on the
answer to it. The rule says what is asked and written, and in which order; how the questions are
answered, and whether answers are kept, is left to whoever runs it.

| step | what it does |
| --- | --- |
| `done` | ends with an answer |
| `objection`, `fault` | ends without one |
| `output` | adds to the text |
| `reading` | goes on with the text of the node so far |
| `separation` | keeps a digit at a place of that text apart from an escape before it |
| `subtraction` | notes that a subtraction of sets is written |
| `question` | asks about a node and goes on with the answer |

Places are counted from where the node's own text begins.
-/

import RegexBuilder.Pattern.Failure

namespace RegexBuilder

/-- The questions about a pattern that leave its graph as it is. -/
inductive Question where
  | text | core | empty | single
deriving DecidableEq, Repr

namespace Question

/-- What the question is called in failures. -/
def query : Question → Query
  | text => .string
  | core => .unwrap
  | empty => .emptiness
  | single => .atomicity

/-- What the question is answered with. -/
@[reducible] def Answer : Question → Type
  | text => Text
  | core => Ref
  | empty | single => Bool

/-- The answer where there is no node. -/
def absent : (q : Question) → q.Answer
  | text => []
  | core => none
  | empty | single => true

/-- What an answer adds to the text: to ask for a text is to write it. -/
def shown : (q : Question) → q.Answer → Text
  | text, t => t
  | core, _ | empty, _ | single, _ => []

end Question

/-- A program that finds an answer. -/
inductive Rule (α : Type) where
  | done (a : α)
  | objection (i : NodeId) (why : Objection)
  | fault (f : Fault)
  | output (t : Text) (next : Rule α)
  | reading (next : Text → Rule α)
  | separation (place : Nat) (next : Rule α)
  | subtraction (next : Rule α)
  | question (q : Question) (r : Ref) (next : q.Answer → Rule α)

namespace Rule

/-- `p`, and then what `k` makes of its answer. -/
def bind {α β : Type} (p : Rule α) (k : α → Rule β) : Rule β :=
  match p with
  | done a => k a
  | objection i why => objection i why
  | fault f => fault f
  | output t next => output t (next.bind k)
  | reading next => reading fun t => (next t).bind k
  | separation place next => separation place (next.bind k)
  | subtraction next => subtraction (next.bind k)
  | question q r next => question q r fun a => (next a).bind k

instance : Monad Rule where
  pure := done
  bind := bind

/-- Ends with an objection of node `i`. -/
def object {α : Type} (i : NodeId) (why : Objection) : Rule α := objection i why

/-- The result, or its objection as one of node `i`. -/
def ofResult {α : Type} (i : NodeId) : Except Objection α → Rule α
  | .ok a => done a
  | .error why => objection i why

/-- Adds to the text. -/
def emit (t : Text) : Rule Unit := output t (done ())

/-- The text of the node so far. -/
def read : Rule Text := reading done

/-- The end of the text of the node so far. -/
def place : Rule Nat := reading fun t => done t.length

/-- Keeps a digit at `place` apart from an escape that ends there. -/
def separate (place : Nat) : Rule Unit := separation place (done ())

/-- Notes that a subtraction of sets is written. -/
def subtract : Rule Unit := subtraction (done ())

/-- Asks `q` about what is referred to. -/
def ask (q : Question) (r : Ref) : Rule q.Answer := question q r done

/-- Writes what is referred to. -/
def write (r : Ref) : Rule Unit := question .text r fun _ => done ()

end Rule
end RegexBuilder
