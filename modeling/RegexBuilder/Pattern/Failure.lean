/-
# What can go wrong with a pattern

A question about a pattern fails because a node has an objection, because a node was met again while
the same question about it was still open, or because the graph was put together by hand in a way
that has no answer at all.
-/

import RegexBuilder.Pattern.Node

namespace RegexBuilder

/-- The five questions about a pattern. -/
inductive Query where
  | string | unwrap | emptiness | atomicity | copy
deriving DecidableEq, Repr

/-- The name of the question in messages. -/
def Query.name : Query → Text
  | string => "string"
  | unwrap => "unwrap"
  | emptiness => "emptiness"
  | atomicity => "atomicity"
  | copy => "copy"

/-- Why a node cannot be written. -/
inductive Objection where
  | negativeMinimum (n : Int)
  | negativeMaximum (n : Int)
  | invertedBounds (max min : Int)
  | quantifiedAnchor (form : Text)
  | quantifiedComment
  | quantifiedOptions
  | unknownAnchor (code : Int)
  | backreferenceNumber (n : Int)
  | namelessCategory
  | conflictingOptions (both : Options)
  | commentParenthesis
  | negativeGroup (n : Int)
  | namelessGroup
  | emptyCondition
  | unknownCondition (code : Int)
  | onlySubtraction
  | missingEndpoint
  | invertedRange (first last : Text)
  | missingMember
deriving DecidableEq, Repr

namespace Objection

/-- The largest number that a backreference can have. -/
def maxBackreference : Nat := 9

/-- The reason as it is shown. -/
def reason : Objection → Text
  | negativeMinimum n => "minimum " ++ Text.ofInt n ++ " is negative"
  | negativeMaximum n => "maximum " ++ Text.ofInt n ++ " is negative"
  | invertedBounds max min =>
    "maximum " ++ Text.ofInt max ++ " is less than minimum " ++ Text.ofInt min
  | quantifiedAnchor form => "cannot quantify anchor " ++ form
  | quantifiedComment => "cannot quantify a comment"
  | quantifiedOptions => "cannot quantify an inline modifier"
  | unknownAnchor code => "unknown anchor kind " ++ Text.ofInt code
  | backreferenceNumber n =>
    "backreference number " ++ Text.ofInt n ++ " is outside 1.." ++ Text.ofNat maxBackreference
  | namelessCategory => "category name is empty"
  | conflictingOptions both => "options " ++ both.letters.quoted ++ " are both set and cleared"
  | commentParenthesis => "comment contains ')'"
  | negativeGroup n => "group number " ++ Text.ofInt n ++ " is negative"
  | namelessGroup => "group name is empty"
  | emptyCondition => "condition expression is empty"
  | unknownCondition code => "unknown condition kind " ++ Text.ofInt code
  | onlySubtraction => "subtraction without any included character"
  | missingEndpoint => "range with a missing endpoint"
  | invertedRange first last => "range " ++ first ++ "-" ++ last ++ " is inverted"
  | missingMember => "nil set member"

end Objection

/-- What no answer exists for. Only graphs that were put together by hand have such faults. -/
inductive Fault where
  /-- A quantified anchor of an undeclared kind. -/
  | anchor (code : Int)
  /-- A set without one of its members. -/
  | member
  /-- A range without one of its endpoints. -/
  | endpoint
  /-- A node that does not have what is to be changed. -/
  | change
deriving DecidableEq, Repr

/-- How a question about a pattern fails. -/
inductive Failure where
  | invalid (node : NodeId) (why : Objection)
  /-- The last node of the path is met again while the question about it is open; the path lists the nodes with this
  question open. -/
  | recursion (query : Query) (path : List NodeId)
  | broken (fault : Fault)
  /-- The bound on the depth of the search was too small; the bound that is used never is. -/
  | exhausted
deriving DecidableEq, Repr

namespace Failure

/-- The list with `f` applied to its last element. -/
def mapLast {α : Type} (f : α → α) : List α → List α
  | [] => []
  | [a] => [f a]
  | a :: b :: rest => a :: mapLast f (b :: rest)

/-- The message for a failure in the graph `g`; a fault has none. -/
def message (g : Graph) : Failure → Text
  | invalid node why => "invalid pattern " ++ g.label (some node) ++ ": " ++ why.reason
  | recursion query path =>
    "recursive pattern while computing " ++ query.name ++ ": " ++
      Text.join " > " (mapLast (fun l => "[" ++ l ++ "]") (path.map fun i => g.label (some i)))
  | broken _ => []
  | exhausted => []

end Failure
end RegexBuilder
